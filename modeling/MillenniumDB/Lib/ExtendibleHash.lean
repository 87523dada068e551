import Mathlib.Data.Nat.ModEq
import Mathlib.Logic.Function.Basic

/-!
# Extendible hashing

The low bits of a hash choose an entry of the directory, and the entry names a bucket.  A bucket
has a depth of its own: entries that agree in that many low bits share it.  Splitting a bucket
gives the hashes with one more bit set a bucket that no entry names yet.
-/

namespace MillenniumDB

structure ExtHash (β : Type*) where
  depth : Nat
  dir : Nat → Nat
  localDepth : Nat → Nat
  entries : Nat → List β

namespace ExtHash

section

variable {β : Type*}

def slot (t : ExtHash β) (h : Nat) : Nat := t.dir (h % 2 ^ t.depth)

def insert (t : ExtHash β) (bucket : Nat) (e : β) : ExtHash β :=
  { t with entries := Function.update t.entries bucket (t.entries bucket ++ [e]) }

def double (t : ExtHash β) : ExtHash β :=
  { t with depth := t.depth + 1, dir := fun j => t.dir (j % 2 ^ t.depth) }

/-- The bucket `new` takes from a bucket the hashes that end in `suffix`. -/
def split (hash : β → Nat) (t : ExtHash β) (bucket new suffix : Nat) : ExtHash β :=
  let depth := t.localDepth bucket + 1
  { depth := t.depth
    dir := fun j => if j < 2 ^ t.depth ∧ j % 2 ^ depth = suffix then new else t.dir j
    localDepth := Function.update (Function.update t.localDepth bucket depth) new depth
    entries := Function.update
      (Function.update t.entries bucket
        ((t.entries bucket).filter fun e => hash e % 2 ^ depth ≠ suffix))
      new ((t.entries bucket).filter fun e => hash e % 2 ^ depth = suffix) }

/-- Entries of the directory share a bucket if they agree in as many bits as the bucket is deep,
and what is in a bucket agrees with them in these bits. -/
structure Inv (hash : β → Nat) (t : ExtHash β) : Prop where
  le_depth : ∀ j < 2 ^ t.depth, t.localDepth (t.dir j) ≤ t.depth
  shared : ∀ i < 2 ^ t.depth, ∀ j < 2 ^ t.depth, t.dir i = t.dir j ↔
    i % 2 ^ t.localDepth (t.dir j) = j % 2 ^ t.localDepth (t.dir j)
  placed : ∀ j < 2 ^ t.depth, ∀ e ∈ t.entries (t.dir j),
    hash e % 2 ^ t.localDepth (t.dir j) = j % 2 ^ t.localDepth (t.dir j)

def Stored (t : ExtHash β) (e : β) : Prop := ∃ j < 2 ^ t.depth, e ∈ t.entries (t.dir j)

variable {hash : β → Nat} {t : ExtHash β} {e e' : β} {h i j bucket new suffix : Nat}

theorem dir_split_of_eq (hj : j < 2 ^ t.depth)
    (hsuffix : j % 2 ^ (t.localDepth bucket + 1) = suffix) :
    (t.split hash bucket new suffix).dir j = new := if_pos ⟨hj, hsuffix⟩

theorem dir_split_of_ne (hsuffix : j % 2 ^ (t.localDepth bucket + 1) ≠ suffix) :
    (t.split hash bucket new suffix).dir j = t.dir j := if_neg fun hand => hsuffix hand.2

theorem localDepth_split_new :
    (t.split hash bucket new suffix).localDepth new = t.localDepth bucket + 1 :=
  Function.update_self ..

theorem localDepth_split_self (hne : bucket ≠ new) :
    (t.split hash bucket new suffix).localDepth bucket = t.localDepth bucket + 1 := by
  simp only [split, Function.update_of_ne hne, Function.update_self]

theorem localDepth_split_of_ne (hnew : i ≠ new) (hne : i ≠ bucket) :
    (t.split hash bucket new suffix).localDepth i = t.localDepth i := by
  simp only [split, Function.update_of_ne hnew, Function.update_of_ne hne]

theorem mem_split_new : e ∈ (t.split hash bucket new suffix).entries new ↔
    e ∈ t.entries bucket ∧ hash e % 2 ^ (t.localDepth bucket + 1) = suffix := by
  simp only [split, Function.update_self, List.mem_filter, decide_eq_true_eq]

theorem mem_split_self (hne : bucket ≠ new) :
    e ∈ (t.split hash bucket new suffix).entries bucket ↔
      e ∈ t.entries bucket ∧ hash e % 2 ^ (t.localDepth bucket + 1) ≠ suffix := by
  simp only [split, Function.update_of_ne hne, Function.update_self, List.mem_filter,
    decide_eq_true_eq]

theorem entries_split_of_ne (hnew : i ≠ new) (hne : i ≠ bucket) :
    (t.split hash bucket new suffix).entries i = t.entries i := by
  simp only [split, Function.update_of_ne hnew, Function.update_of_ne hne]

theorem mod_two_pow_mod {m n : Nat} (hle : m ≤ n) (x : Nat) : x % 2 ^ n % 2 ^ m = x % 2 ^ m :=
  Nat.mod_mod_of_dvd x (Nat.pow_dvd_pow 2 hle)

theorem mod_two_pow_succ_cases (x n : Nat) :
    x % 2 ^ (n + 1) = x % 2 ^ n ∨ x % 2 ^ (n + 1) = 2 ^ n + x % 2 ^ n := by
  have hbit := Nat.mod_two_eq_zero_or_one (x / 2 ^ n)
  rw [Nat.mod_pow_succ]
  rcases hbit with hbit | hbit
  · left
    rw [hbit, Nat.mul_zero, Nat.add_zero]
  · right
    rw [hbit, Nat.mul_one, Nat.add_comm]

theorem mod_two_pow_lt (x n : Nat) : x % 2 ^ n < 2 ^ n := Nat.mod_lt x (Nat.two_pow_pos n)

namespace Inv

/-- The bucket of a hash is that of every entry of the directory with the same low bits. -/
theorem slot_eq (ht : Inv hash t) (hj : j < 2 ^ t.depth)
    (hlow : h % 2 ^ t.localDepth (t.dir j) = j % 2 ^ t.localDepth (t.dir j)) :
    t.slot h = t.dir j := by
  rw [slot, ht.shared _ (mod_two_pow_lt _ _) j hj, mod_two_pow_mod (ht.le_depth j hj)]
  exact hlow

theorem stored_iff (ht : Inv hash t) : t.Stored e ↔ e ∈ t.entries (t.slot (hash e)) := by
  constructor
  · rintro ⟨j, hj, he⟩
    rw [ht.slot_eq hj (ht.placed j hj e he)]
    exact he
  · intro he
    exact ⟨_, mod_two_pow_lt _ _, he⟩

theorem insert (ht : Inv hash t) (e : β) : Inv hash (t.insert (t.slot (hash e)) e) where
  le_depth := ht.le_depth
  shared := ht.shared
  placed j hj e' he' := by
    simp only [ExtHash.insert] at hj he' ⊢
    by_cases hslot : t.dir j = t.slot (hash e)
    · rw [hslot, Function.update_self, List.mem_append, List.mem_singleton, ← hslot] at he'
      rcases he' with he' | rfl
      · exact ht.placed j hj e' he'
      · have hshared := (ht.shared _ (mod_two_pow_lt _ _) j hj).mp hslot.symm
        rw [mod_two_pow_mod (ht.le_depth j hj)] at hshared
        exact hshared
    · rw [Function.update_of_ne hslot] at he'
      exact ht.placed j hj e' he'

theorem stored_insert (e e' : β) :
    (t.insert (t.slot (hash e)) e).Stored e' ↔ t.Stored e' ∨ e' = e := by
  simp only [Stored, ExtHash.insert]
  constructor
  · rintro ⟨j, hj, he'⟩
    by_cases hslot : t.dir j = t.slot (hash e)
    · rw [hslot, Function.update_self, List.mem_append, List.mem_singleton, ← hslot] at he'
      exact he'.imp_left fun he' => ⟨j, hj, he'⟩
    · rw [Function.update_of_ne hslot] at he'
      exact .inl ⟨j, hj, he'⟩
  · rintro (⟨j, hj, he'⟩ | rfl)
    · refine ⟨j, hj, ?_⟩
      by_cases hslot : t.dir j = t.slot (hash e)
      · rw [hslot, Function.update_self, ← hslot]
        exact List.mem_append_left _ he'
      · rw [Function.update_of_ne hslot]
        exact he'
    · refine ⟨_, mod_two_pow_lt (hash e') _, ?_⟩
      rw [← slot, Function.update_self]
      exact List.mem_append_right _ List.mem_cons_self

theorem double (ht : Inv hash t) : Inv hash t.double where
  le_depth j hj := Nat.le_succ_of_le (ht.le_depth _ (mod_two_pow_lt _ _))
  shared i hi j hj := by
    have hle := ht.le_depth _ (mod_two_pow_lt j t.depth)
    have hshared := ht.shared _ (mod_two_pow_lt i t.depth) _ (mod_two_pow_lt j t.depth)
    rw [mod_two_pow_mod hle, mod_two_pow_mod hle] at hshared
    exact hshared
  placed j hj e he := by
    have hle := ht.le_depth _ (mod_two_pow_lt j t.depth)
    have hplaced := ht.placed _ (mod_two_pow_lt j t.depth) e he
    rw [mod_two_pow_mod hle] at hplaced
    exact hplaced

theorem stored_double : t.double.Stored e ↔ t.Stored e := by
  constructor
  · rintro ⟨j, hj, he⟩
    exact ⟨_, mod_two_pow_lt j t.depth, he⟩
  · rintro ⟨j, hj, he⟩
    refine ⟨j, Nat.lt_trans hj (Nat.pow_lt_pow_succ (by omega)), ?_⟩
    simp only [ExtHash.double, Nat.mod_eq_of_lt hj]
    exact he

end Inv

/-- A bucket can be split for a hash: it is less deep than the directory, and no entry of the
directory names the new bucket. -/
structure Splits (t : ExtHash β) (h new : Nat) : Prop where
  lt_depth : t.localDepth (t.slot h) < t.depth
  unused : ∀ j < 2 ^ t.depth, t.dir j ≠ new

def newSuffix (t : ExtHash β) (h : Nat) : Nat :=
  2 ^ t.localDepth (t.slot h) + h % 2 ^ t.localDepth (t.slot h)

namespace Inv

theorem dir_eq_slot (ht : Inv hash t) (hj : j < 2 ^ t.depth) :
    t.dir j = t.slot h ↔
      j % 2 ^ t.localDepth (t.slot h) = h % 2 ^ t.localDepth (t.slot h) := by
  have hle := ht.le_depth _ (mod_two_pow_lt h t.depth)
  rw [slot, ht.shared j hj _ (mod_two_pow_lt h t.depth), mod_two_pow_mod hle]

theorem dir_of_newSuffix (ht : Inv hash t) (hj : j < 2 ^ t.depth)
    (hsuffix : j % 2 ^ (t.localDepth (t.slot h) + 1) = t.newSuffix h) : t.dir j = t.slot h := by
  rw [ht.dir_eq_slot hj, ← mod_two_pow_mod (Nat.le_succ _) j, hsuffix, newSuffix,
    Nat.add_mod_left, Nat.mod_mod]

theorem mod_of_ne_newSuffix {x : Nat}
    (hold : x % 2 ^ t.localDepth (t.slot h) = h % 2 ^ t.localDepth (t.slot h))
    (hne : x % 2 ^ (t.localDepth (t.slot h) + 1) ≠ t.newSuffix h) :
    x % 2 ^ (t.localDepth (t.slot h) + 1) = h % 2 ^ t.localDepth (t.slot h) := by
  rcases mod_two_pow_succ_cases x (t.localDepth (t.slot h)) with hbit | hbit
  · rw [hbit, hold]
  · rw [hbit, hold] at hne
    exact absurd rfl hne

theorem split (ht : Inv hash t) (hs : Splits t h new) :
    Inv hash (t.split hash (t.slot h) new (t.newSuffix h)) := by
  have hslot : t.slot h ≠ new := hs.unused _ (mod_two_pow_lt _ _)
  constructor
  · intro j hj
    have hj : j < 2 ^ t.depth := hj
    by_cases hjnew : j % 2 ^ (t.localDepth (t.slot h) + 1) = t.newSuffix h
    · rw [dir_split_of_eq hj hjnew, localDepth_split_new]
      exact hs.lt_depth
    · rw [dir_split_of_ne hjnew]
      by_cases hb : t.dir j = t.slot h
      · rw [hb, localDepth_split_self hslot]
        exact hs.lt_depth
      · rw [localDepth_split_of_ne (hs.unused j hj) hb]
        exact ht.le_depth j hj
  · intro i hi j hj
    have hi : i < 2 ^ t.depth := hi
    have hj : j < 2 ^ t.depth := hj
    by_cases hjnew : j % 2 ^ (t.localDepth (t.slot h) + 1) = t.newSuffix h
    · rw [dir_split_of_eq hj hjnew, localDepth_split_new, hjnew]
      by_cases hinew : i % 2 ^ (t.localDepth (t.slot h) + 1) = t.newSuffix h
      · rw [dir_split_of_eq hi hinew]
        exact iff_of_true rfl hinew
      · rw [dir_split_of_ne hinew]
        exact iff_of_false (hs.unused i hi) hinew
    · rw [dir_split_of_ne hjnew]
      by_cases hb : t.dir j = t.slot h
      · -- both halves of the old bucket
        rw [hb, localDepth_split_self hslot]
        have hjold := mod_of_ne_newSuffix ((ht.dir_eq_slot hj).mp hb) hjnew
        by_cases hinew : i % 2 ^ (t.localDepth (t.slot h) + 1) = t.newSuffix h
        · rw [dir_split_of_eq hi hinew, hinew]
          exact iff_of_false hslot.symm fun heq => hjnew heq.symm
        · rw [dir_split_of_ne hinew, ht.dir_eq_slot hi, hjold]
          constructor
          · intro hiold
            exact mod_of_ne_newSuffix hiold hinew
          · intro hiold
            rw [← mod_two_pow_mod (Nat.le_succ _) i, hiold, Nat.mod_mod]
      · rw [localDepth_split_of_ne (hs.unused j hj) hb]
        by_cases hinew : i % 2 ^ (t.localDepth (t.slot h) + 1) = t.newSuffix h
        · -- another bucket shared nothing with the old one
          rw [dir_split_of_eq hi hinew, ← ht.shared i hi j hj, ht.dir_of_newSuffix hi hinew]
          exact iff_of_false (fun heq => hs.unused j hj heq.symm) fun heq => hb heq.symm
        · rw [dir_split_of_ne hinew]
          exact ht.shared i hi j hj
  · intro j hj e he
    have hj : j < 2 ^ t.depth := hj
    by_cases hjnew : j % 2 ^ (t.localDepth (t.slot h) + 1) = t.newSuffix h
    · rw [dir_split_of_eq hj hjnew] at he ⊢
      rw [localDepth_split_new, hjnew]
      exact (mem_split_new.mp he).2
    · rw [dir_split_of_ne hjnew] at he ⊢
      by_cases hb : t.dir j = t.slot h
      · have hlow := (ht.dir_eq_slot hj).mp hb
        rw [hb] at he ⊢
        obtain ⟨he, hne⟩ := (mem_split_self hslot).mp he
        rw [← hb] at he
        have hplaced := ht.placed j hj e he
        rw [hb, hlow] at hplaced
        rw [localDepth_split_self hslot, mod_of_ne_newSuffix hlow hjnew]
        exact mod_of_ne_newSuffix hplaced hne
      · rw [entries_split_of_ne (hs.unused j hj) hb] at he
        rw [localDepth_split_of_ne (hs.unused j hj) hb]
        exact ht.placed j hj e he

theorem stored_split (ht : Inv hash t) (hs : Splits t h new) :
    (t.split hash (t.slot h) new (t.newSuffix h)).Stored e ↔ t.Stored e := by
  have hslot : t.slot h ≠ new := hs.unused _ (mod_two_pow_lt _ _)
  have hlow : hash e % 2 ^ t.depth % 2 ^ (t.localDepth (t.slot h) + 1) =
      hash e % 2 ^ (t.localDepth (t.slot h) + 1) := mod_two_pow_mod hs.lt_depth _
  rw [(ht.split hs).stored_iff, ht.stored_iff]
  by_cases hnew : hash e % 2 ^ (t.localDepth (t.slot h) + 1) = t.newSuffix h
  · have hold : t.slot (hash e) = t.slot h :=
      ht.dir_of_newSuffix (mod_two_pow_lt _ _) (hlow.trans hnew)
    have hsplit : (t.split hash (t.slot h) new (t.newSuffix h)).slot (hash e) = new :=
      dir_split_of_eq (mod_two_pow_lt _ _) (hlow.trans hnew)
    rw [hsplit, hold, mem_split_new]
    exact and_iff_left hnew
  · have hsplit : (t.split hash (t.slot h) new (t.newSuffix h)).slot (hash e) =
        t.slot (hash e) := dir_split_of_ne (hlow.symm ▸ hnew)
    rw [hsplit]
    by_cases hb : t.slot (hash e) = t.slot h
    · rw [hb, mem_split_self hslot]
      exact and_iff_left hnew
    · have hunused : t.slot (hash e) ≠ new := hs.unused _ (mod_two_pow_lt _ _)
      rw [entries_split_of_ne hunused hb]

end Inv

def Holds (hash : β → Nat) (t : ExtHash β) (stored : List β) : Prop :=
  ∀ j < 2 ^ t.depth, t.entries (t.dir j) = stored.filter fun e =>
    hash e % 2 ^ t.localDepth (t.dir j) = j % 2 ^ t.localDepth (t.dir j)

namespace Inv

variable {stored : List β}

theorem holds_insert (ht : Inv hash t) (hholds : t.Holds hash stored) (e : β) :
    (t.insert (t.slot (hash e)) e).Holds hash (stored ++ [e]) := by
  intro j hj
  have hj : j < 2 ^ t.depth := hj
  have hle := ht.le_depth j hj
  show Function.update t.entries (t.slot (hash e)) (t.entries (t.slot (hash e)) ++ [e]) (t.dir j) =
    (stored ++ [e]).filter fun e =>
      hash e % 2 ^ t.localDepth (t.dir j) = j % 2 ^ t.localDepth (t.dir j)
  rw [List.filter_append]
  by_cases hslot : t.dir j = t.slot (hash e)
  · have hlow := (ht.shared _ (mod_two_pow_lt _ _) j hj).mp hslot.symm
    rw [mod_two_pow_mod hle] at hlow
    have hold := hholds j hj
    rw [hslot] at hlow hold ⊢
    rw [Function.update_self, hold, List.filter_cons_of_pos (by simpa using hlow),
      List.filter_nil]
  · have hlow : ¬ hash e % 2 ^ t.localDepth (t.dir j) = j % 2 ^ t.localDepth (t.dir j) :=
      fun heq => hslot (ht.slot_eq hj heq).symm
    rw [Function.update_of_ne hslot, hholds j hj,
      List.filter_cons_of_neg (by simpa using hlow), List.filter_nil, List.append_nil]

theorem holds_double (ht : Inv hash t) (hholds : t.Holds hash stored) :
    t.double.Holds hash stored := by
  intro j hj
  have hle := ht.le_depth _ (mod_two_pow_lt j t.depth)
  have hold := hholds _ (mod_two_pow_lt j t.depth)
  rw [mod_two_pow_mod hle] at hold
  exact hold

theorem holds_split (ht : Inv hash t) (hs : Splits t h new) (hholds : t.Holds hash stored) :
    (t.split hash (t.slot h) new (t.newSuffix h)).Holds hash stored := by
  have hslot : t.slot h ≠ new := hs.unused _ (mod_two_pow_lt _ _)
  have hold := hholds _ (mod_two_pow_lt h t.depth)
  rw [mod_two_pow_mod (ht.le_depth _ (mod_two_pow_lt h t.depth))] at hold
  have hold : t.entries (t.slot h) = stored.filter fun e =>
      hash e % 2 ^ t.localDepth (t.slot h) = h % 2 ^ t.localDepth (t.slot h) := hold
  intro j hj
  have hj : j < 2 ^ t.depth := hj
  by_cases hjnew : j % 2 ^ (t.localDepth (t.slot h) + 1) = t.newSuffix h
  · rw [dir_split_of_eq hj hjnew, localDepth_split_new, hjnew]
    simp only [ExtHash.split, Function.update_self]
    rw [hold, List.filter_filter]
    apply List.filter_congr
    intro e _
    -- the new suffix ends in the old one
    have hends : hash e % 2 ^ (t.localDepth (t.slot h) + 1) = t.newSuffix h →
        hash e % 2 ^ t.localDepth (t.slot h) = h % 2 ^ t.localDepth (t.slot h) := by
      intro heq
      rw [← mod_two_pow_mod (Nat.le_succ _) (hash e), heq, newSuffix, Nat.add_mod_left, Nat.mod_mod]
    rw [← Bool.decide_and]
    exact decide_eq_decide.mpr (and_iff_left_of_imp hends)
  · rw [dir_split_of_ne hjnew]
    by_cases hb : t.dir j = t.slot h
    · have hjold := mod_of_ne_newSuffix ((ht.dir_eq_slot hj).mp hb) hjnew
      rw [hb, localDepth_split_self hslot, hjold]
      simp only [ExtHash.split, Function.update_of_ne hslot, Function.update_self]
      rw [hold, List.filter_filter]
      apply List.filter_congr
      intro e _
      have hiff : hash e % 2 ^ (t.localDepth (t.slot h) + 1) ≠ t.newSuffix h ∧
          hash e % 2 ^ t.localDepth (t.slot h) = h % 2 ^ t.localDepth (t.slot h) ↔
            hash e % 2 ^ (t.localDepth (t.slot h) + 1) = h % 2 ^ t.localDepth (t.slot h) := by
        constructor
        · intro ⟨hne, heq⟩
          exact mod_of_ne_newSuffix heq hne
        · intro heq
          refine ⟨fun hsuffix => ?_, ?_⟩
          · exact hjnew (hjold.trans (heq.symm.trans hsuffix))
          · rw [← mod_two_pow_mod (Nat.le_succ _) (hash e), heq, Nat.mod_mod]
      rw [← Bool.decide_and]
      exact decide_eq_decide.mpr hiff
    · rw [entries_split_of_ne (hs.unused j hj) hb, localDepth_split_of_ne (hs.unused j hj) hb]
      exact hholds j hj

end Inv

end

end ExtHash
end MillenniumDB
