import MillenniumDB.InsertRuns
import Mathlib.Data.Rat.Defs

/-!
# The file of the catalog

`save_changes` writes the counters of the catalog and the entries of its maps as 64-bit words,
and the constructor reads them again.  Four of the maps have no size of their own in the file,
and two estimates of the planner enter keys into three of them.
-/

namespace MillenniumDB

abbrev Reader (α : Type) := StateT (List UInt8) Option α

def writeUint64 (n : Nat) : List UInt8 := (List.range 8).map fun i => UInt8.ofNat (n / 256 ^ i)

def ofBytes : List UInt8 → Nat
  | [] => 0
  | b :: bs => b.toNat + 256 * ofBytes bs

def readUint64 : Reader Nat := fun file =>
  if file.length < 8 then none else some (ofBytes (file.take 8), file.drop 8)

def writeWords (words : List Nat) : List UInt8 := words.flatMap writeUint64

theorem ofBytes_writeUint64 {n : Nat} (h : n < 2 ^ 64) : ofBytes (writeUint64 n) = n := by
  simp only [writeUint64, List.range, List.range.loop, List.map_cons, List.map_nil, ofBytes,
    UInt8.toNat_ofNat']
  omega

theorem readUint64_writeUint64 {n : Nat} (h : n < 2 ^ 64) (rest : List UInt8) :
    readUint64 (writeUint64 n ++ rest) = some (n, rest) := by
  have hlength : (writeUint64 n).length = 8 := rfl
  rw [readUint64, if_neg (by rw [List.length_append, hlength]; omega),
    List.take_append_of_le_length (by omega), List.drop_append_of_le_length (by omega),
    List.take_of_length_le (by omega), List.drop_of_length_le (by omega), List.nil_append,
    ofBytes_writeUint64 h]

theorem readUint64_bind {α : Type} {n : Nat} (h : n < 2 ^ 64) (words : List Nat)
    (rest : List UInt8) (f : Nat → Reader α) :
    (readUint64 >>= f) (writeWords (n :: words) ++ rest) = f n (writeWords words ++ rest) := by
  have hread : readUint64 (writeWords (n :: words) ++ rest) =
      some (n, writeWords words ++ rest) := by
    rw [writeWords, List.flatMap_cons, List.append_assoc]
    exact readUint64_writeUint64 h _
  simp only [bind, StateT.bind, hread, Option.bind_some]

namespace Counts

def words (m : Counts Nat) : List Nat := m.entries.flatMap fun e => [e.1, e.2]

/-- Reads `size` entries into the map; an entry whose key is there already is skipped. -/
def read : Nat → Counts Nat → Reader (Counts Nat)
  | 0, m => pure m
  | size + 1, m => do
    let key ← readUint64
    let count ← readUint64
    read size (m.insertNew key count)

def Same (m m' : Counts Nat) : Prop := ∀ k, m.lookup k = m'.lookup k

variable {m m' : Counts Nat} {k l n : Nat} {file rest : List UInt8}

theorem size_insertNew : (m.insertNew k n).size = if k ∈ m then m.size else m.size + 1 := by
  rw [insertNew]
  split
  · rfl
  · next h =>
    rw [size, AList.keys_insert, List.length_cons,
      List.erase_of_not_mem (fun hk => h (AList.mem_keys.mpr hk)), size]

theorem Same.size (h : Same m m') : m.size = m'.size := by
  have hmem : ∀ k, k ∈ m.keys ↔ k ∈ m'.keys := by
    intro k
    rw [← AList.mem_keys, ← AList.mem_keys, ← AList.lookup_isSome, ← AList.lookup_isSome, h k]
  exact ((List.perm_ext_iff_of_nodup m.keys_nodup m'.keys_nodup).mpr hmem).length_eq

theorem size_read_le {size : Nat} (h : read size m file = some (m', rest)) :
    m'.size ≤ m.size + size := by
  induction size generalizing m file with
  | zero =>
    cases h
    exact le_rfl
  | succ size ih =>
    rw [read] at h
    obtain ⟨⟨key, file'⟩, -, h⟩ := Option.bind_eq_some_iff.mp h
    obtain ⟨⟨count, file''⟩, -, h⟩ := Option.bind_eq_some_iff.mp h
    have hle := ih h
    rw [size_insertNew] at hle
    split at hle <;> omega

theorem lookup_insertNew (h : k ∉ m) :
    (m.insertNew k n).lookup l = if l = k then some n else m.lookup l := by
  rw [insertNew, if_neg h]
  by_cases hl : l = k
  · subst hl
    simp
  · simp [hl, AList.lookup_insert_ne hl]

theorem read_entries (entries : List (Sigma fun _ : Nat => Nat)) (m : Counts Nat)
    (hnodup : entries.NodupKeys) (hnew : ∀ e ∈ entries, e.1 ∉ m)
    (hfits : ∀ e ∈ entries, e.1 < 2 ^ 64 ∧ e.2 < 2 ^ 64) (words : List Nat) (rest : List UInt8) :
    ∃ m', read entries.length m
        (writeWords ((entries.flatMap fun e => [e.1, e.2]) ++ words) ++ rest) =
          some (m', writeWords words ++ rest) ∧
      ∀ k, m'.lookup k = (entries.dlookup k).or (m.lookup k) := by
  induction entries generalizing m with
  | nil => exact ⟨m, rfl, fun k => by simp⟩
  | cons e entries ih =>
    obtain ⟨hkey, hnodup⟩ := List.nodupKeys_cons.mp hnodup
    obtain ⟨hhead, htail⟩ := List.forall_mem_cons.mp hfits
    have hnotMem := hnew e List.mem_cons_self
    obtain ⟨m', hread, hlookup⟩ := ih (m.insertNew e.1 e.2) hnodup (fun e' he' hmem => by
      rcases mem_insertNew.mp hmem with heq | hmem
      · exact hkey (heq ▸ List.mem_keys_of_mem he')
      · exact hnew e' (List.mem_cons_of_mem _ he') hmem) htail
    refine ⟨m', ?_, fun k => ?_⟩
    · have hwords : (e :: entries).flatMap (fun e => [e.1, e.2]) ++ words =
          e.1 :: e.2 :: ((entries.flatMap fun e => [e.1, e.2]) ++ words) := rfl
      rw [List.length_cons, read, hwords, readUint64_bind hhead.1, readUint64_bind hhead.2]
      exact hread
    · rw [hlookup, lookup_insertNew hnotMem]
      by_cases hk : k = e.1
      · subst hk
        rw [List.dlookup_eq_none.mpr hkey, if_pos rfl]
        obtain ⟨key, count⟩ := e
        simp
      · rw [if_neg hk]
        obtain ⟨key, count⟩ := e
        rw [List.dlookup_cons_ne _ _ hk]

theorem read_words (m : Counts Nat) (hfits : ∀ e ∈ m.entries, e.1 < 2 ^ 64 ∧ e.2 < 2 ^ 64)
    (words : List Nat) (rest : List UInt8) :
    ∃ m', read m.size ∅ (writeWords (m.words ++ words) ++ rest) =
        some (m', writeWords words ++ rest) ∧ m'.Same m := by
  have hsize : m.size = m.entries.length := List.length_map _
  obtain ⟨m', hread, hlookup⟩ := read_entries m.entries ∅ m.nodupKeys
    (fun e _ => AList.notMem_empty e.1) hfits words rest
  refine ⟨m', hsize ▸ hread, fun k => ?_⟩
  rw [hlookup, AList.lookup_empty, Option.or_none]
  rfl

end Counts

namespace QuadCatalog

def counters (c : QuadCatalog) : List Nat :=
  [c.identifiableNodesCount, c.anonymousNodesCount, c.connectionsCount, c.labelCount,
    c.propertiesCount, c.distinctLabels, c.distinctFrom, c.distinctTo, c.distinctType,
    c.distinctKeys, c.equalFromToCount, c.equalFromTypeCount, c.equalToTypeCount,
    c.equalFromToTypeCount]

def maps (c : QuadCatalog) : List (Counts Nat) :=
  [c.label2totalCount, c.type2totalCount, c.key2totalCount, c.key2distinct,
    c.type2equalFromToTypeCount, c.type2equalFromToCount, c.type2equalFromTypeCount,
    c.type2equalToTypeCount]

def mapWords (c : QuadCatalog) : List Nat :=
  c.label2totalCount.words ++ (c.type2totalCount.words ++
    (c.key2totalCount.words ++ (c.key2distinct.words ++
      (c.type2equalFromToTypeCount.size :: (c.type2equalFromToTypeCount.words ++
        (c.type2equalFromToCount.size :: (c.type2equalFromToCount.words ++
          (c.type2equalFromTypeCount.size :: (c.type2equalFromTypeCount.words ++
            (c.type2equalToTypeCount.size :: (c.type2equalToTypeCount.words ++ [])))))))))))

/-- The words that `save_changes` writes. -/
def words (c : QuadCatalog) : List Nat := c.counters ++ c.mapWords

/-- `save_changes` over a file: what lies behind the words stays. -/
def saveChanges (c : QuadCatalog) (file : List UInt8) : List UInt8 :=
  writeWords c.words ++ file.drop (writeWords c.words).length

def readMaps (c : QuadCatalog) : Reader QuadCatalog := do
  let label2totalCount ← Counts.read c.distinctLabels ∅
  let type2totalCount ← Counts.read c.distinctType ∅
  let key2totalCount ← Counts.read c.distinctKeys ∅
  let key2distinct ← Counts.read c.distinctKeys ∅
  let type2equalFromToTypeCountSize ← readUint64
  let type2equalFromToTypeCount ← Counts.read type2equalFromToTypeCountSize ∅
  let type2equalFromToCountSize ← readUint64
  let type2equalFromToCount ← Counts.read type2equalFromToCountSize ∅
  let type2equalFromTypeCountSize ← readUint64
  let type2equalFromTypeCount ← Counts.read type2equalFromTypeCountSize ∅
  let type2equalToTypeCountSize ← readUint64
  let type2equalToTypeCount ← Counts.read type2equalToTypeCountSize ∅
  return { c with
    label2totalCount, type2totalCount, key2totalCount, key2distinct, type2equalFromToTypeCount
    type2equalFromToCount, type2equalFromTypeCount, type2equalToTypeCount }

def read : Reader QuadCatalog := do
  let identifiableNodesCount ← readUint64
  let anonymousNodesCount ← readUint64
  let connectionsCount ← readUint64
  let labelCount ← readUint64
  let propertiesCount ← readUint64
  let distinctLabels ← readUint64
  let distinctFrom ← readUint64
  let distinctTo ← readUint64
  let distinctType ← readUint64
  let distinctKeys ← readUint64
  let equalFromToCount ← readUint64
  let equalFromTypeCount ← readUint64
  let equalToTypeCount ← readUint64
  let equalFromToTypeCount ← readUint64
  readMaps { empty with
    identifiableNodesCount, anonymousNodesCount, connectionsCount, labelCount, propertiesCount
    distinctLabels, distinctFrom, distinctTo, distinctType, distinctKeys, equalFromToCount
    equalFromTypeCount, equalToTypeCount, equalFromToTypeCount }

def load (file : List UInt8) : Option QuadCatalog :=
  if file = [] then some empty else (read file).map Prod.fst

structure Same (c c' : QuadCatalog) : Prop where
  counters : c.counters = c'.counters
  maps : List.Forall₂ Counts.Same c.maps c'.maps

structure Fits (c : QuadCatalog) : Prop where
  counters : ∀ n ∈ c.counters, n < 2 ^ 64
  maps : ∀ m ∈ c.maps, m.size < 2 ^ 64 ∧ ∀ e ∈ m.entries, e.1 < 2 ^ 64 ∧ e.2 < 2 ^ 64

def Reloads (c : QuadCatalog) (file : List UInt8) : Prop :=
  ∃ c', load (c.saveChanges file) = some c' ∧ c'.Same c

/-- What the assertions of `save_changes` say. -/
structure Synced (c : QuadCatalog) : Prop where
  labels : c.distinctLabels = c.label2totalCount.size
  types : c.distinctType = c.type2totalCount.size
  keys : c.distinctKeys = c.key2totalCount.size
  values : c.distinctKeys = c.key2distinct.size

variable {c c' : QuadCatalog} {file : List UInt8}

def withoutMaps (c : QuadCatalog) : QuadCatalog :=
  { c with
    label2totalCount := ∅, type2totalCount := ∅, key2totalCount := ∅, key2distinct := ∅
    type2equalFromToTypeCount := ∅, type2equalFromToCount := ∅, type2equalFromTypeCount := ∅
    type2equalToTypeCount := ∅ }

theorem read_counters (hcounters : ∀ n ∈ c.counters, n < 2 ^ 64) (words : List Nat)
    (rest : List UInt8) : read (writeWords (c.counters ++ words) ++ rest) =
      readMaps c.withoutMaps (writeWords words ++ rest) := by
  simp only [counters, List.forall_mem_cons] at hcounters
  obtain ⟨h1, h2, h3, h4, h5, h6, h7, h8, h9, h10, h11, h12, h13, h14, -⟩ := hcounters
  simp only [counters, List.cons_append, List.nil_append]
  rw [read, readUint64_bind h1, readUint64_bind h2, readUint64_bind h3, readUint64_bind h4,
    readUint64_bind h5, readUint64_bind h6, readUint64_bind h7, readUint64_bind h8,
    readUint64_bind h9, readUint64_bind h10, readUint64_bind h11, readUint64_bind h12,
    readUint64_bind h13, readUint64_bind h14]
  rfl

theorem load_saveChanges (h : c.Fits) : load (c.saveChanges file) =
    (readMaps c.withoutMaps (writeWords c.mapWords ++
      file.drop (writeWords c.words).length)).map Prod.fst := by
  have hne : c.saveChanges file ≠ [] := by
    intro hnil
    have hlength := congrArg List.length hnil
    rw [saveChanges, List.length_append, words, counters, List.cons_append, writeWords,
      List.flatMap_cons, List.length_append] at hlength
    have hword : (writeUint64 c.identifiableNodesCount).length = 8 := rfl
    rw [List.length_nil] at hlength
    omega
  rw [load, if_neg hne, saveChanges]
  generalize file.drop (writeWords c.words).length = rest
  rw [words, read_counters h.counters]

theorem Counts.read_bind {α : Type} {m m' : Counts Nat} {size : Nat} {file rest : List UInt8}
    (h : Counts.read size m file = some (m', rest)) (f : Counts Nat → Reader α) :
    (Counts.read size m >>= f) file = f m' rest := by
  simp only [bind, StateT.bind, h, Option.bind_some]

theorem Synced.reloads (hs : c.Synced) (h : c.Fits) : c.Reloads file := by
  have hmaps := h.maps
  simp only [maps, List.forall_mem_cons] at hmaps
  obtain ⟨h1, h2, h3, h4, h5, h6, h7, h8, -⟩ := hmaps
  rw [Reloads, load_saveChanges h]
  generalize file.drop (writeWords c.words).length = rest
  rw [mapWords]
  obtain ⟨m1, hr1, hm1⟩ := c.label2totalCount.read_words h1.2 _ rest
  obtain ⟨m2, hr2, hm2⟩ := c.type2totalCount.read_words h2.2 _ rest
  obtain ⟨m3, hr3, hm3⟩ := c.key2totalCount.read_words h3.2 _ rest
  obtain ⟨m4, hr4, hm4⟩ := c.key2distinct.read_words h4.2 _ rest
  obtain ⟨m5, hr5, hm5⟩ := c.type2equalFromToTypeCount.read_words h5.2 _ rest
  obtain ⟨m6, hr6, hm6⟩ := c.type2equalFromToCount.read_words h6.2 _ rest
  obtain ⟨m7, hr7, hm7⟩ := c.type2equalFromTypeCount.read_words h7.2 _ rest
  obtain ⟨m8, hr8, hm8⟩ := c.type2equalToTypeCount.read_words h8.2 _ rest
  rw [readMaps]
  dsimp only [withoutMaps]
  rw [hs.labels, Counts.read_bind hr1, hs.types, Counts.read_bind hr2, hs.keys,
    Counts.read_bind hr3, ← hs.keys, hs.values, Counts.read_bind hr4, readUint64_bind h5.1,
    Counts.read_bind hr5, readUint64_bind h6.1, Counts.read_bind hr6, readUint64_bind h7.1,
    Counts.read_bind hr7, readUint64_bind h8.1, Counts.read_bind hr8]
  refine ⟨_, rfl, ?_, ?_⟩
  · simp only [counters, hs.labels, hs.types, hs.values]
  · exact .cons hm1 (.cons hm2 (.cons hm3 (.cons hm4 (.cons hm5 (.cons hm6 (.cons hm7
      (.cons hm8 .nil)))))))

/-- Fewer entries of labels or of keys are read back than there are, when the counters say so. -/
theorem Reloads.sizes_le (hr : c.Reloads file) (h : c.Fits) :
    c.label2totalCount.size ≤ c.distinctLabels ∧ c.key2totalCount.size ≤ c.distinctKeys := by
  obtain ⟨c', hload, hsame⟩ := hr
  rw [load_saveChanges h] at hload
  obtain ⟨⟨c'', rest⟩, hread, rfl⟩ := Option.map_eq_some_iff.mp hload
  rw [readMaps] at hread
  obtain ⟨⟨m1, f1⟩, hr1, hread⟩ := Option.bind_eq_some_iff.mp hread
  obtain ⟨⟨m2, f2⟩, -, hread⟩ := Option.bind_eq_some_iff.mp hread
  obtain ⟨⟨m3, f3⟩, hr3, hread⟩ := Option.bind_eq_some_iff.mp hread
  obtain ⟨⟨m4, f4⟩, -, hread⟩ := Option.bind_eq_some_iff.mp hread
  obtain ⟨⟨s5, g5⟩, -, hread⟩ := Option.bind_eq_some_iff.mp hread
  obtain ⟨⟨m5, f5⟩, -, hread⟩ := Option.bind_eq_some_iff.mp hread
  obtain ⟨⟨s6, g6⟩, -, hread⟩ := Option.bind_eq_some_iff.mp hread
  obtain ⟨⟨m6, f6⟩, -, hread⟩ := Option.bind_eq_some_iff.mp hread
  obtain ⟨⟨s7, g7⟩, -, hread⟩ := Option.bind_eq_some_iff.mp hread
  obtain ⟨⟨m7, f7⟩, -, hread⟩ := Option.bind_eq_some_iff.mp hread
  obtain ⟨⟨s8, g8⟩, -, hread⟩ := Option.bind_eq_some_iff.mp hread
  obtain ⟨⟨m8, f8⟩, -, hread⟩ := Option.bind_eq_some_iff.mp hread
  cases hread
  have hmaps := hsame.maps
  simp only [maps, List.forall₂_cons] at hmaps
  have hle1 := Counts.size_read_le hr1
  have hle3 := Counts.size_read_le hr3
  rw [hmaps.1.size] at hle1
  rw [hmaps.2.2.1.size] at hle3
  simpa [Counts.size, withoutMaps] using And.intro hle1 hle3

end QuadCatalog

end MillenniumDB
