import MillenniumDB.EdgeTable
import MillenniumDB.LeapfrogBpt

/-!
# The leapfrog iterator over the edge table

An edge has one row, at the place that its id says.  `LeapfrogEdgeTableIter` keeps the id and the
row of one edge, and is to answer as an iterator over a tree with one record for each edge would.
-/

namespace MillenniumDB

structure LeapfrogEdgeTableIter where
  level : Int
  currentTuple : Tuple

namespace LeapfrogEdgeTableIter

/-- `current_tuple`, from the id of an edge and its row. -/
def tupleOf (permutation : List Nat) (id : Nat) (record : Tuple) : Tuple :=
  id :: permutation.map fun column => record.getD column 0

def getKey (s : LeapfrogEdgeTableIter) : Nat := s.currentTuple.getD s.level.toNat 0

section

variable (table : EdgeTable) (permutation : List Nat)

/-- `down`; without a first row there is nothing to read. -/
def down (s : LeapfrogEdgeTableIter) : Option LeapfrogEdgeTableIter :=
  let s := { s with level := s.level + 1 }
  if s.level = 0 then
    (table.get 0).map fun record =>
      { s with currentTuple := tupleOf permutation (1 ||| ObjectId.maskEdge) record }
  else some s

def up (s : LeapfrogEdgeTableIter) : LeapfrogEdgeTableIter := { s with level := s.level - 1 }

def next (s : LeapfrogEdgeTableIter) : Bool × LeapfrogEdgeTableIter :=
  if s.level = 0 then
    let edge := (s.currentTuple.headD 0 + 1) % 2 ^ 64
    let edgeValue := edge &&& ObjectId.valueMask
    match table.get ((edgeValue + 2 ^ 64 - 1) % 2 ^ 64) with
    | none => (false, s)
    | some record => (true, { s with currentTuple := tupleOf permutation edge record })
  else (false, s)

def seek (key : Nat) (s : LeapfrogEdgeTableIter) : Bool × LeapfrogEdgeTableIter :=
  if s.level = 0 then
    if key &&& ObjectId.typeMask ≠ ObjectId.maskEdge then (false, s)
    else
      let edgeValue := key &&& ObjectId.valueMask
      match table.get ((edgeValue + 2 ^ 64 - 1) % 2 ^ 64) with
      | none => (false, s)
      | some record => (true, { s with currentTuple := tupleOf permutation key record })
  else (decide (key ≤ s.getKey), s)

/-- `open_terms`.  The first range is the edge; its row is looked up at the place after its own. -/
def openTerms (ranges : List (Nat × Nat)) (s : LeapfrogEdgeTableIter) :
    Bool × LeapfrogEdgeTableIter :=
  match ranges with
  | [] =>
    match table.get 0 with
    | none => (false, s)
    | some record =>
      (true, { s with currentTuple := tupleOf permutation (1 ||| ObjectId.maskEdge) record })
  | (obj, _) :: rest =>
    if obj &&& ObjectId.typeMask ≠ ObjectId.maskEdge then (false, s)
    else
      match table.get (obj &&& ObjectId.valueMask) with
      | none => (false, s)
      | some record =>
        let s := { s with currentTuple := tupleOf permutation obj record }
        -- check assigned_vars
        if (rest.map Prod.fst).isPrefixOf s.currentTuple.tail then
          (true, { s with level := (ranges.length : Int) - 1 })
        else (false, s)

def step (s : LeapfrogEdgeTableIter) :
    LeapfrogCall → Option (Option Bool × LeapfrogEdgeTableIter)
  | .openTerms ranges =>
    if ranges.length ≤ 4 then
      some (some (openTerms table permutation ranges s).1, (openTerms table permutation ranges s).2)
    else none
  | .down => if s.level + 1 < 4 then (down table permutation s).map fun s => (none, s) else none
  | .up => if 0 ≤ s.level then some (none, s.up) else none
  | .next =>
    if 0 ≤ s.level then some (some (next table permutation s).1, (next table permutation s).2)
    else none
  | .seek key =>
    if 0 ≤ s.level then
      some (some (seek table permutation key s).1, (seek table permutation key s).2)
    else none

end
end LeapfrogEdgeTableIter

/-- Whether the last `open_terms` has found something. -/
def openAfter (call : LeapfrogCall) (answer : Option Bool) (opened : Bool) : Bool :=
  match call with
  | .openTerms _ => answer == some true
  | _ => opened

def leapfrogAnswers {σ : Type} (step : σ → LeapfrogCall → Option (Option Bool × σ))
    (getKey : σ → Option Nat) :
    Bool → σ → List LeapfrogCall → Option (List (Option Bool × Option Nat))
  | _, _, [] => some []
  | opened, s, call :: calls =>
    (step s call).bind fun result =>
      let opened := openAfter call result.1 opened
      (leapfrogAnswers step getKey opened result.2 calls).map fun answers =>
        (result.1, if opened then getKey result.2 else none) :: answers

def keyAt (level : Int) (tuple : Tuple) : Option Nat :=
  if 0 ≤ level then some (tuple.getD level.toNat 0) else none

def edgeRecords (table : EdgeTable) (permutation : List Nat) : List Tuple :=
  table.rows.mapIdx fun row record =>
    LeapfrogEdgeTableIter.tupleOf permutation ((row + 1) ||| ObjectId.maskEdge) record

section

variable {t : Tuple} {n : Nat}

theorem cons_le_cons_iff {x y : Nat} {s : Tuple} : x :: s ≤ y :: t ↔ x < y ∨ x = y ∧ s ≤ t := by
  rw [← not_lt, List.cons_lt_cons_iff]
  rcases lt_trichotomy x y with hlt | rfl | hlt
  · simp [hlt, hlt.not_gt, hlt.ne']
  · simp
  · simp [hlt, hlt.not_gt, hlt.ne']

theorem replicate_zero_le (hlen : t.length = n) : List.replicate n 0 ≤ t := by
  induction t generalizing n with
  | nil =>
    subst hlen
    exact le_rfl
  | cons x t ih =>
    subst hlen
    rw [List.length_cons, List.replicate_succ, cons_le_cons_iff]
    rcases Nat.eq_zero_or_pos x with rfl | hx
    · exact Or.inr ⟨rfl, ih rfl⟩
    · exact Or.inl hx

theorem le_replicate_max (hlen : t.length = n) (hle : ∀ x ∈ t, x ≤ uint64Max) :
    t ≤ List.replicate n uint64Max := by
  induction t generalizing n with
  | nil =>
    subst hlen
    exact le_rfl
  | cons x t ih =>
    subst hlen
    rw [List.length_cons, List.replicate_succ, cons_le_cons_iff]
    rcases Nat.lt_or_eq_of_le (hle x List.mem_cons_self) with hlt | rfl
    · exact Or.inl hlt
    · exact Or.inr ⟨rfl, ih rfl fun y hy => hle y (List.mem_cons_of_mem _ hy)⟩

theorem between_iff (hlen : t.length = n) (hle : ∀ x ∈ t, x ≤ uint64Max) {pre : List Nat}
    (hpre : pre.length ≤ n) : (minFrom n pre ≤ t ∧ t ≤ maxFrom n pre) ↔ pre <+: t := by
  simp only [minFrom, maxFrom]
  induction pre generalizing t n with
  | nil =>
    simp only [List.length_nil, Nat.sub_zero, List.nil_append, List.nil_prefix, iff_true]
    exact ⟨replicate_zero_le hlen, le_replicate_max hlen hle⟩
  | cons x pre ih =>
    cases t with
    | nil => simp at hlen; subst hlen; simp at hpre
    | cons y t =>
      obtain rfl : t.length + 1 = n := hlen
      rw [List.length_cons, Nat.add_sub_add_right, List.cons_append, List.cons_append,
        cons_le_cons_iff, cons_le_cons_iff, List.cons_prefix_cons,
        ← ih rfl (fun z hz => hle z (List.mem_cons_of_mem _ hz)) (Nat.le_of_succ_le_succ hpre)]
      constructor
      · rintro ⟨hlt | ⟨rfl, hlow⟩, hlt' | ⟨heq, hhigh⟩⟩
        · omega
        · omega
        · omega
        · exact ⟨rfl, hlow, hhigh⟩
      · rintro ⟨rfl, hlow, hhigh⟩
        exact ⟨Or.inr ⟨rfl, hlow⟩, Or.inr ⟨rfl, hhigh⟩⟩

theorem minFrom_concat_le_iff (hlen : t.length = n) {level : Nat} (hlevel : level < n) (key : Nat) :
    minFrom n (t.take level ++ [key]) ≤ t ↔ key ≤ t.getD level 0 := by
  simp only [minFrom]
  induction t generalizing n level with
  | nil => simp at hlen; omega
  | cons x t ih =>
    obtain rfl : t.length + 1 = n := hlen
    cases level with
    | zero =>
      simp only [List.take_zero, List.nil_append, List.length_singleton, Nat.add_sub_cancel,
        List.singleton_append, List.getD_cons_zero, cons_le_cons_iff]
      have hzeros := replicate_zero_le (rfl : t.length = t.length)
      simp only [hzeros, and_true]
      omega
    | succ level =>
      simp only [List.take_succ_cons, List.cons_append, List.length_cons, Nat.add_sub_add_right,
        List.getD_cons_succ]
      rw [cons_le_cons_iff, or_iff_right (lt_irrefl x), and_iff_right rfl]
      exact ih rfl (Nat.lt_of_succ_lt_succ hlevel)

theorem minFrom_le (hlen : t.length = n) {pre : List Nat} (hpre : pre <+: t) :
    minFrom n pre ≤ t := by
  obtain ⟨rest, rfl⟩ := hpre
  subst hlen
  simp only [minFrom, List.length_append, Nat.add_sub_cancel_left]
  induction pre with
  | nil => exact replicate_zero_le rfl
  | cons x pre ih => exact List.cons_le_cons x ih

end

theorem edgeId_eq {e : Nat} (he : e < 2 ^ 56) : e ||| ObjectId.maskEdge = e + ObjectId.maskEdge := by
  have hmask : ObjectId.maskEdge = 2 ^ 56 * 17 := by decide
  rw [Nat.or_comm, hmask, ← Nat.two_pow_add_eq_or_of_lt he, Nat.add_comm]

theorem eq_of_typeMask {key : Nat} (hkey : key < 2 ^ 64)
    (htype : key &&& ObjectId.typeMask = ObjectId.maskEdge) :
    key = (key &&& ObjectId.valueMask) + ObjectId.maskEdge ∧
      key &&& ObjectId.valueMask < 2 ^ 56 := by
  have hvalue : key &&& ObjectId.valueMask < 2 ^ 56 := by
    have hmask : ObjectId.valueMask = 2 ^ 56 - 1 := by decide
    rw [hmask, Nat.and_two_pow_sub_one_eq_mod]
    exact Nat.mod_lt _ (by decide)
  refine ⟨?_, hvalue⟩
  have hwhole : (key &&& ObjectId.typeMask) ||| (key &&& ObjectId.valueMask) = key := by
    rw [← Nat.and_or_distrib_left]
    have hmask : ObjectId.typeMask ||| ObjectId.valueMask = 2 ^ 64 - 1 := by decide
    rw [hmask, Nat.and_two_pow_sub_one_eq_mod, Nat.mod_eq_of_lt hkey]
  rw [htype, Nat.or_comm, edgeId_eq hvalue] at hwhole
  exact hwhole.symm

theorem typeMask_of_between {key : Nat} (hlow : ObjectId.maskEdge ≤ key)
    (hhigh : key < ObjectId.maskEdge + 2 ^ 56) :
    key &&& ObjectId.typeMask = ObjectId.maskEdge := by
  obtain ⟨e, rfl⟩ := Nat.exists_eq_add_of_le hlow
  have he : e < 2 ^ 56 := by omega
  rw [Nat.add_comm, ← edgeId_eq he, Nat.and_comm, typeMask_edge he]

/-- A well-formed tree over the edges of a table: the columns are words, and the ids of the edges
and of the next one fit below the type. -/
structure EdgeTree (table : EdgeTable) (permutation : List Nat) (tree : BPlusTree)
    (sep : Nat → Tuple) (leaves : List Nat) : Prop where
  wellFormed : tree.WellFormed sep leaves
  stored : ∀ r, r ∈ tree.stored leaves ↔ r ∈ edgeRecords table permutation
  columns : permutation.length = 3
  words : ∀ row ∈ table.rows, ∀ x ∈ row, x < 2 ^ 64
  ids : table.rows.length + 1 < 2 ^ 56

def LeapfrogCall.Words : LeapfrogCall → Prop
  | .openTerms ranges => ∀ range ∈ ranges, range.1 < 2 ^ 64
  | .seek key => key < 2 ^ 64
  | _ => True

namespace LeapfrogEdgeTableIter

/-- What `open_terms` makes of a row for the edge of the first range. -/
def rowMatch (permutation : List Nat) (obj : Nat) (rest : List (Nat × Nat))
    (record : Option Tuple) : Option Tuple :=
  record.bind fun record =>
    if (rest.map Prod.fst).isPrefixOf (tupleOf permutation obj record).tail then
      some (tupleOf permutation obj record)
    else none

/-- When a call is answered as a tree would answer it.  `open_terms` without a range finds the
iterator at its first level; with ranges, each a single value, the row that it looks at makes the
same of them as the row of the edge.  The other calls come after an `open_terms` that has found
something; a key that is sought at the first level is not below all edges, and below that level
`next` is not called at the greatest word. -/
def CallOk (table : EdgeTable) (permutation : List Nat) (opened : Bool)
    (s : LeapfrogEdgeTableIter) : LeapfrogCall → Prop
  | .openTerms [] => s.level = -1
  | .openTerms ((obj, top) :: rest) => (∀ range ∈ (obj, top) :: rest, range.2 = range.1) ∧
      (obj &&& ObjectId.typeMask = ObjectId.maskEdge →
        rowMatch permutation obj rest (table.get (obj &&& ObjectId.valueMask)) =
          rowMatch permutation obj rest (if obj &&& ObjectId.valueMask = 0 then none
            else table.get ((obj &&& ObjectId.valueMask) - 1)))
  | .down => opened = true
  | .up => opened = true
  | .next => opened = true ∧ (0 < s.level → s.getKey ≠ uint64Max)
  | .seek key => opened = true ∧ (s.level = 0 → 1 ||| ObjectId.maskEdge ≤ key)

/-- A run whose calls are all answered as a tree would answer them. -/
def Meets (table : EdgeTable) (permutation : List Nat) :
    Bool → LeapfrogEdgeTableIter → List LeapfrogCall → Prop
  | _, _, [] => True
  | opened, s, call :: calls => CallOk table permutation opened s call ∧
      ∀ answer s', step table permutation s call = some (answer, s') →
        Meets table permutation (openAfter call answer opened) s' calls

section

variable {table : EdgeTable} {permutation : List Nat} {tree : BPlusTree} {sep : Nat → Tuple}
  {leaves : List Nat} {s : LeapfrogEdgeTableIter} {b : LeapfrogBptIter} {i : Nat}
  {record min max : Tuple}

theorem mem_edgeRecords {r : Tuple} : r ∈ edgeRecords table permutation ↔
    ∃ i record, table.get i = some record ∧
      r = tupleOf permutation ((i + 1) ||| ObjectId.maskEdge) record := by
  rw [edgeRecords, List.mem_mapIdx]
  constructor
  · rintro ⟨i, hi, rfl⟩
    exact ⟨i, _, by rw [EdgeTable.get_eq, List.getElem?_eq_getElem hi], rfl⟩
  · rintro ⟨i, record, hget, rfl⟩
    rw [EdgeTable.get_eq] at hget
    obtain ⟨hi, rfl⟩ := List.getElem?_eq_some_iff.mp hget
    exact ⟨i, hi, rfl⟩

theorem row_lt (h : EdgeTree table permutation tree sep leaves) (hget : table.get i = some record) :
    i < table.rows.length ∧ i + 2 < 2 ^ 56 := by
  rw [EdgeTable.get_eq] at hget
  have hlt := (List.getElem?_eq_some_iff.mp hget).1
  have hids := h.ids
  omega

theorem tupleOf_length (h : EdgeTree table permutation tree sep leaves) (id : Nat)
    (record : Tuple) : (tupleOf permutation id record).length = 4 := by
  simp [tupleOf, h.columns]

theorem tupleOf_le (h : EdgeTree table permutation tree sep leaves)
    (hget : table.get i = some record) :
    ∀ x ∈ tupleOf permutation ((i + 1) ||| ObjectId.maskEdge) record, x ≤ uint64Max := by
  have hlt : i + 1 < 2 ^ 56 := Nat.lt_of_succ_lt (row_lt h hget).2
  intro x hx
  rcases List.mem_cons.mp hx with rfl | hx
  · rw [edgeId_eq hlt]
    have hmask : ObjectId.maskEdge + 2 ^ 56 ≤ uint64Max := by decide
    omega
  · obtain ⟨column, _, rfl⟩ := List.mem_map.mp hx
    rw [EdgeTable.get_eq] at hget
    have hword : record.getD column 0 < 2 ^ 64 := by
      rw [List.getD_eq_getElem?_getD]
      cases hcolumn : record[column]? with
      | none => exact Nat.two_pow_pos 64
      | some y => exact h.words record (List.mem_of_getElem? hget) y (List.mem_of_getElem? hcolumn)
    exact Nat.le_sub_one_of_lt hword

theorem tupleOf_mono (h : EdgeTree table permutation tree sep leaves) {j : Nat} {record' : Tuple}
    (hi : table.get i = some record) (hj : table.get j = some record') (hle : i ≤ j) :
    tupleOf permutation ((i + 1) ||| ObjectId.maskEdge) record ≤
      tupleOf permutation ((j + 1) ||| ObjectId.maskEdge) record' := by
  have hi' : i + 1 < 2 ^ 56 := Nat.lt_of_succ_lt (row_lt h hi).2
  have hj' : j + 1 < 2 ^ 56 := Nat.lt_of_succ_lt (row_lt h hj).2
  rcases Nat.lt_or_eq_of_le hle with hlt | rfl
  · rw [tupleOf, tupleOf, cons_le_cons_iff, edgeId_eq hi', edgeId_eq hj']
    exact Or.inl (by omega)
  · obtain rfl := Option.some.inj (hi.symm.trans hj)
    exact le_rfl

theorem search_found (h : EdgeTree table permutation tree sep leaves)
    (hb : LeapfrogBptIter.Inv tree sep leaves b) {r : Tuple} (hr : r ∈ edgeRecords table permutation)
    (hmin : min ≤ r) (hmax : r ≤ max)
    (hleast : ∀ r' ∈ edgeRecords table permutation, min ≤ r' → r' ≤ max → r ≤ r') :
    ∃ b', LeapfrogBptIter.internalSearch tree min max b = some (true, b') ∧
      LeapfrogBptIter.Inv tree sep leaves b' ∧ b'.level = b.level ∧ b'.currentTuple = r := by
  obtain ⟨found, b', heq, hinv, hlevel, hcases⟩ :=
    LeapfrogBptIter.internalSearch_spec h.wellFormed hb min max
  rcases hcases with ⟨rfl, _, _, hnext, hle⟩ | ⟨_, _, _, _, _, hnone⟩
  · refine ⟨b', heq, hinv, hlevel, le_antisymm ?_ ?_⟩
    · exact hnext.2 ⟨(h.stored r).mpr hr, hmin⟩
    · exact hleast _ ((h.stored _).mp hnext.1.1) hnext.1.2 hle
  · exact absurd hmax (not_le.mpr (hnone r ((h.stored r).mpr hr) hmin))

theorem search_none (h : EdgeTree table permutation tree sep leaves)
    (hb : LeapfrogBptIter.Inv tree sep leaves b) (min max : Tuple)
    (hnone : ∀ r ∈ edgeRecords table permutation, min ≤ r → ¬ r ≤ max) :
    ∃ b', LeapfrogBptIter.internalSearch tree min max b = some (false, b') ∧
      LeapfrogBptIter.Inv tree sep leaves b' ∧ b'.level = b.level ∧
      b'.currentTuple = b.currentTuple := by
  obtain ⟨found, b', heq, hinv, hlevel, hcases⟩ :=
    LeapfrogBptIter.internalSearch_spec h.wellFormed hb min max
  rcases hcases with ⟨_, _, _, hnext, hle⟩ | ⟨rfl, _, htuple, _, _, _⟩
  · exact absurd hle (hnone _ ((h.stored _).mp hnext.1.1) hnext.1.2)
  · exact ⟨b', heq, hinv, hlevel, htuple⟩

theorem eq_of_head (h : EdgeTree table permutation tree sep leaves) {r t : Tuple}
    (hr : r ∈ edgeRecords table permutation) (ht : t ∈ edgeRecords table permutation)
    (hhead : r.head? = t.head?) : r = t := by
  obtain ⟨i, record, hi, rfl⟩ := mem_edgeRecords.mp hr
  obtain ⟨j, record', hj, rfl⟩ := mem_edgeRecords.mp ht
  have hid := edge_inj (Nat.lt_of_succ_lt (row_lt h hi).2) (Nat.lt_of_succ_lt (row_lt h hj).2)
    (Option.some.inj hhead)
  obtain rfl : i = j := by omega
  rw [Option.some.inj (hi.symm.trans hj)]

theorem head?_of_isPrefix {pre r t : List Nat} (hne : pre ≠ []) (hr : pre <+: r) (ht : pre <+: t) :
    r.head? = t.head? := by
  obtain ⟨x, pre, rfl⟩ := List.exists_cons_of_ne_nil hne
  obtain ⟨r, rfl⟩ := hr
  obtain ⟨t, rfl⟩ := ht
  rfl

theorem prefix_iff (h : EdgeTree table permutation tree sep leaves) {r : Tuple}
    (hr : r ∈ edgeRecords table permutation) {pre : List Nat} (hpre : pre.length ≤ 4) :
    (minFrom 4 pre ≤ r ∧ r ≤ maxFrom 4 pre) ↔ pre <+: r := by
  obtain ⟨i, record, hget, rfl⟩ := mem_edgeRecords.mp hr
  exact between_iff (tupleOf_length h _ _) (tupleOf_le h hget) hpre

theorem search_prefix (h : EdgeTree table permutation tree sep leaves)
    (hb : LeapfrogBptIter.Inv tree sep leaves b) {t : Tuple} (ht : t ∈ edgeRecords table permutation)
    {pre : List Nat} (hne : pre ≠ []) (hpre : pre <+: t) :
    ∃ b', LeapfrogBptIter.internalSearch tree (minFrom 4 pre) (maxFrom 4 pre) b =
        some (true, b') ∧
      LeapfrogBptIter.Inv tree sep leaves b' ∧ b'.level = b.level ∧ b'.currentTuple = t := by
  have hlen : pre.length ≤ 4 := by
    obtain ⟨i, record, _, rfl⟩ := mem_edgeRecords.mp ht
    exact hpre.length_le.trans (tupleOf_length h _ _).le
  obtain ⟨hmin, hmax⟩ := (prefix_iff h ht hlen).mpr hpre
  apply search_found h hb ht hmin hmax
  intro r' hr' hmin' hmax'
  have hpre' := (prefix_iff h hr' hlen).mp ⟨hmin', hmax'⟩
  exact (eq_of_head h ht hr' (head?_of_isPrefix hne hpre hpre')).le

theorem search_below (h : EdgeTree table permutation tree sep leaves)
    (hb : LeapfrogBptIter.Inv tree sep leaves b) {t : Tuple} (ht : t ∈ edgeRecords table permutation)
    {level : Nat} (hpos : 0 < level) (hlevel : level < 4) (x : Nat) :
    ∃ b', LeapfrogBptIter.internalSearch tree (minFrom 4 (t.take level ++ [x]))
        (maxFrom 4 (t.take level)) b = some (decide (x ≤ t.getD level 0), b') ∧
      LeapfrogBptIter.Inv tree sep leaves b' ∧ b'.level = b.level ∧
      (b.currentTuple = t → b'.currentTuple = t) := by
  have hlength : t.length = 4 := by
    obtain ⟨i, record, _, rfl⟩ := mem_edgeRecords.mp ht
    exact tupleOf_length h _ _
  have htake : (t.take level).length = level := by
    rw [List.length_take, hlength]
    omega
  have hlen : (t.take level).length ≤ 4 := by omega
  have hpre : t.take level <+: t := List.take_prefix level t
  have hne : t.take level ≠ [] := by
    intro hnil
    rw [hnil] at htake
    exact absurd htake (by simp; omega)
  -- whatever else is between the bounds has the same id
  have hsame : ∀ r ∈ edgeRecords table permutation, minFrom 4 (t.take level ++ [x]) ≤ r →
      r ≤ maxFrom 4 (t.take level) → r = t := by
    intro r hr hmin hmax
    have hle : minFrom 4 (t.take level) ≤ minFrom 4 (t.take level ++ [x]) := by
      apply minFrom_le
      · simp only [minFrom, List.length_append, List.length_replicate, List.length_singleton]
        omega
      · rw [minFrom, List.append_assoc]
        exact List.prefix_append _ _
    have hpre' := (prefix_iff h hr hlen).mp ⟨hle.trans hmin, hmax⟩
    exact eq_of_head h hr ht (head?_of_isPrefix hne hpre' hpre)
  have hmin := minFrom_concat_le_iff hlength hlevel x
  by_cases hx : x ≤ t.getD level 0
  · rw [decide_eq_true hx]
    have hmax := ((prefix_iff h ht hlen).mpr hpre).2
    obtain ⟨b', heq, hinv, hlevel', htuple⟩ := search_found h hb ht (hmin.mpr hx) hmax
      fun r hr hlow hhigh => (hsame r hr hlow hhigh).ge
    exact ⟨b', heq, hinv, hlevel', fun _ => htuple⟩
  · rw [decide_eq_false hx]
    obtain ⟨b', heq, hinv, hlevel', htuple⟩ := search_none h hb _ _ fun r hr hlow hhigh => by
      rw [hsame r hr hlow hhigh] at hlow
      exact hx (hmin.mp hlow)
    exact ⟨b', heq, hinv, hlevel', fun hb' => htuple.trans hb'⟩

theorem search_top (h : EdgeTree table permutation tree sep leaves)
    (hb : LeapfrogBptIter.Inv tree sep leaves b) {x : Nat}
    (hx : ∀ j < i, ((j + 1) ||| ObjectId.maskEdge) < x)
    (hid : x ≤ ((i + 1) ||| ObjectId.maskEdge)) :
    ∃ b', LeapfrogBptIter.internalSearch tree (minFrom 4 [x]) (maxFrom 4 []) b =
        some ((table.get i).isSome, b') ∧
      LeapfrogBptIter.Inv tree sep leaves b' ∧ b'.level = b.level ∧
      b'.currentTuple = match table.get i with
        | none => b.currentTuple
        | some record => tupleOf permutation ((i + 1) ||| ObjectId.maskEdge) record := by
  have hmin : ∀ {j : Nat} {record : Tuple}, table.get j = some record →
      (minFrom 4 [x] ≤ tupleOf permutation ((j + 1) ||| ObjectId.maskEdge) record ↔
        x ≤ ((j + 1) ||| ObjectId.maskEdge)) := fun hget =>
    minFrom_concat_le_iff (tupleOf_length h _ _) (by decide : 0 < 4) x
  have hle : ∀ {j : Nat} {record : Tuple}, table.get j = some record →
      minFrom 4 [x] ≤ tupleOf permutation ((j + 1) ||| ObjectId.maskEdge) record → i ≤ j := by
    intro j record hget hlow
    by_contra hlt
    exact absurd (hx j (by omega)) (not_lt.mpr ((hmin hget).mp hlow))
  cases hget : table.get i with
  | some record =>
    have hr : tupleOf permutation ((i + 1) ||| ObjectId.maskEdge) record ∈
        edgeRecords table permutation := mem_edgeRecords.mpr ⟨i, record, hget, rfl⟩
    apply search_found h hb hr ((hmin hget).mpr hid) ((prefix_iff h hr (by simp)).mpr
      List.nil_prefix).2
    intro r' hr' hlow _
    obtain ⟨j, record', hget', rfl⟩ := mem_edgeRecords.mp hr'
    exact tupleOf_mono h hget hget' (hle hget' hlow)
  | none =>
    apply search_none h hb _ _
    intro r hr hlow _
    obtain ⟨j, record', hget', rfl⟩ := mem_edgeRecords.mp hr
    have hij := hle hget' hlow
    have hlt := (row_lt h hget').1
    rw [EdgeTable.get_eq, List.getElem?_eq_none_iff] at hget
    omega

structure Agrees (table : EdgeTable) (permutation : List Nat) (tree : BPlusTree)
    (sep : Nat → Tuple) (leaves : List Nat) (s : LeapfrogEdgeTableIter) (b : LeapfrogBptIter) :
    Prop where
  level : b.level = s.level
  bounds : -1 ≤ s.level ∧ s.level < 4
  tuple : b.currentTuple = s.currentTuple
  row : ∃ i record, table.get i = some record ∧
    s.currentTuple = tupleOf permutation ((i + 1) ||| ObjectId.maskEdge) record
  inv : LeapfrogBptIter.Inv tree sep leaves b

theorem Agrees.mem (ha : Agrees table permutation tree sep leaves s b) :
    s.currentTuple ∈ edgeRecords table permutation := mem_edgeRecords.mpr ha.row

theorem get_zero (hget : table.get i = some record) : ∃ first, table.get 0 = some first := by
  rw [EdgeTable.get_eq] at hget
  have hlt := (List.getElem?_eq_some_iff.mp hget).1
  have hpos : 0 < table.rows.length := by omega
  exact ⟨_, by rw [EdgeTable.get_eq, List.getElem?_eq_getElem hpos]⟩

theorem search_first (h : EdgeTree table permutation tree sep leaves)
    (hb : LeapfrogBptIter.Inv tree sep leaves b) :
    ∃ b', LeapfrogBptIter.internalSearch tree (minFrom 4 []) (maxFrom 4 []) b =
        some ((table.get 0).isSome, b') ∧
      LeapfrogBptIter.Inv tree sep leaves b' ∧ b'.level = b.level ∧
      b'.currentTuple = match table.get 0 with
        | none => b.currentTuple
        | some record => tupleOf permutation (1 ||| ObjectId.maskEdge) record := by
  have hzero : minFrom 4 [] = minFrom 4 [0] := rfl
  rw [hzero]
  exact search_top h hb (fun j hj => absurd hj (Nat.not_lt_zero j)) (Nat.zero_le _)

theorem down_agrees (h : EdgeTree table permutation tree sep leaves)
    (ha : Agrees table permutation tree sep leaves s b) (hlevel : s.level + 1 < 4) :
    ∃ s' b' found, down table permutation s = some s' ∧
      LeapfrogBptIter.down 4 tree b = some (found, b') ∧
      Agrees table permutation tree sep leaves s' b' := by
  have hlow := ha.bounds.1
  rw [down, LeapfrogBptIter.down]
  dsimp only
  rw [ha.level, ha.tuple]
  obtain ⟨i, record, hget, htuple⟩ := ha.row
  by_cases hzero : s.level + 1 = 0
  · rw [if_pos hzero, hzero]
    obtain ⟨first, hfirst⟩ := get_zero hget
    obtain ⟨b', heq, hinv, hlevel', htuple'⟩ := search_first h (ha.inv.level 0)
    rw [hfirst] at htuple'
    rw [ha.tuple] at heq
    rw [hfirst, Option.map_some, Int.toNat_zero, List.take_zero]
    refine ⟨_, b', _, rfl, heq, hlevel', ?_, htuple', ⟨0, first, hfirst, rfl⟩, hinv⟩
    exact ⟨(by decide : (-1 : Int) ≤ 0), (by decide : (0 : Int) < 4)⟩
  · rw [if_neg hzero]
    have hne : s.currentTuple.take (s.level + 1).toNat ≠ [] := by
      rw [htuple, tupleOf]
      obtain ⟨l, hl⟩ : ∃ l, (s.level + 1).toNat = l + 1 := Nat.exists_eq_add_one.mpr (by omega)
      rw [hl, List.take_succ_cons]
      exact List.cons_ne_nil _ _
    obtain ⟨b', heq, hinv, hlevel', htuple'⟩ :=
      search_prefix h (ha.inv.level (s.level + 1)) ha.mem hne (List.take_prefix _ _)
    rw [ha.tuple] at heq
    exact ⟨_, b', _, rfl, heq, hlevel', ⟨by dsimp only; omega, hlevel⟩, htuple', ha.row, hinv⟩

theorem getD_le (h : EdgeTree table permutation tree sep leaves)
    (ha : Agrees table permutation tree sep leaves s b) (level : Nat) :
    s.currentTuple.getD level 0 ≤ uint64Max := by
  obtain ⟨i, record, hget, htuple⟩ := ha.row
  rw [htuple, List.getD_eq_getElem?_getD]
  cases hx : (tupleOf permutation ((i + 1) ||| ObjectId.maskEdge) record)[level]? with
  | none => exact Nat.zero_le _
  | some x => exact tupleOf_le h hget x (List.mem_of_getElem? hx)

theorem next_agrees (h : EdgeTree table permutation tree sep leaves)
    (ha : Agrees table permutation tree sep leaves s b) (hlevel : 0 ≤ s.level)
    (hkey : 0 < s.level → s.getKey ≠ uint64Max) :
    ∃ b', LeapfrogBptIter.next 4 tree b = some ((next table permutation s).1, b') ∧
      Agrees table permutation tree sep leaves (next table permutation s).2 b' := by
  rw [LeapfrogBptIter.next, ha.level, ha.tuple]
  by_cases hzero : s.level = 0
  · obtain ⟨i, record, hget, htuple⟩ := ha.row
    have hi := (row_lt h hget).2
    have hnext : (((i + 1) ||| ObjectId.maskEdge) + 1) % 2 ^ 64 =
        (i + 1 + 1) ||| ObjectId.maskEdge := by
      rw [edgeId_eq (by omega : i + 1 < 2 ^ 56), edgeId_eq hi, Nat.mod_eq_of_lt]
      · omega
      · have hmask : ObjectId.maskEdge + 2 ^ 56 < 2 ^ 64 := by decide
        omega
    have hplace : (((i + 1 + 1) ||| ObjectId.maskEdge) &&& ObjectId.valueMask) = i + 1 + 1 := by
      rw [Nat.and_comm, valueMask_edge hi]
    have hrow : (i + 1 + 1 + 2 ^ 64 - 1) % 2 ^ 64 = i + 1 := by omega
    obtain ⟨b', heq, hinv, hlevel', htuple'⟩ := search_top h ha.inv (i := i + 1)
      (x := (i + 1 + 1) ||| ObjectId.maskEdge) (fun j hj => by
        rw [edgeId_eq (by omega : j + 1 < 2 ^ 56), edgeId_eq hi]
        omega) le_rfl
    rw [hzero, Int.toNat_zero, List.take_zero, List.nil_append, htuple]
    rw [next, if_pos hzero, htuple]
    simp only [tupleOf, List.getD_cons_zero, List.headD_cons, hnext, hplace, hrow]
    refine ⟨b', ?_, ?_⟩
    · rw [heq]
      cases table.get (i + 1) <;> rfl
    · cases hget' : table.get (i + 1) with
      | none =>
        rw [hget'] at htuple'
        exact ⟨hlevel'.trans ha.level, ha.bounds, htuple'.trans ha.tuple, ⟨i, record, hget, htuple⟩,
          hinv⟩
      | some record' =>
        rw [hget'] at htuple'
        exact ⟨hlevel'.trans ha.level, ha.bounds, htuple', ⟨i + 1, record', hget', rfl⟩, hinv⟩
  · have hpos : 0 < s.level := by omega
    have hle := getD_le h ha s.level.toNat
    have hlt : s.currentTuple.getD s.level.toNat 0 + 1 < 2 ^ 64 := by
      have hne : s.currentTuple.getD s.level.toNat 0 ≠ uint64Max := hkey hpos
      have hmax : uint64Max + 1 = 2 ^ 64 := by decide
      omega
    obtain ⟨b', heq, hinv, hlevel', htuple'⟩ := search_below h ha.inv ha.mem
      (by omega : 0 < s.level.toNat) (by have := ha.bounds.2; omega)
      (s.currentTuple.getD s.level.toNat 0 + 1)
    rw [decide_eq_false (by omega)] at heq
    rw [Nat.mod_eq_of_lt hlt, heq, next, if_neg hzero]
    exact ⟨b', rfl, hlevel'.trans ha.level, ha.bounds, htuple' ha.tuple, ha.row, hinv⟩

theorem seek_agrees (h : EdgeTree table permutation tree sep leaves)
    (ha : Agrees table permutation tree sep leaves s b) (hlevel : 0 ≤ s.level) {key : Nat}
    (hword : key < 2 ^ 64) (hkey : s.level = 0 → 1 ||| ObjectId.maskEdge ≤ key) :
    ∃ b', LeapfrogBptIter.seek 4 tree key b = some ((seek table permutation key s).1, b') ∧
      Agrees table permutation tree sep leaves (seek table permutation key s).2 b' := by
  rw [LeapfrogBptIter.seek, ha.level, ha.tuple]
  by_cases hzero : s.level = 0
  · rw [hzero, Int.toNat_zero, List.take_zero, List.nil_append, seek, if_pos hzero]
    have hlow := hkey hzero
    rw [edgeId_eq (by decide : 1 < 2 ^ 56)] at hlow
    by_cases htype : key &&& ObjectId.typeMask = ObjectId.maskEdge
    · obtain ⟨hvalue, hlt⟩ := eq_of_typeMask hword htype
      rw [if_neg (not_not_intro htype)]
      generalize key &&& ObjectId.valueMask = v at hvalue hlt
      obtain ⟨i, rfl⟩ : ∃ i, v = i + 1 := Nat.exists_eq_add_one.mpr (by omega)
      have hrow : (i + 1 + 2 ^ 64 - 1) % 2 ^ 64 = i := by omega
      have hid : key = (i + 1) ||| ObjectId.maskEdge := by rw [edgeId_eq hlt, hvalue]
      obtain ⟨b', heq, hinv, hlevel', htuple'⟩ := search_top h ha.inv (i := i) (x := key)
        (fun j hj => by
          rw [edgeId_eq (by omega : j + 1 < 2 ^ 56), hvalue]
          omega) hid.le
      dsimp only
      rw [hrow]
      refine ⟨b', ?_, ?_⟩
      · rw [heq]
        cases table.get i <;> rfl
      · cases hget : table.get i with
        | none =>
          rw [hget] at htuple'
          exact ⟨hlevel'.trans ha.level, ha.bounds, htuple'.trans ha.tuple, ha.row, hinv⟩
        | some record =>
          rw [hget] at htuple'
          refine ⟨hlevel'.trans ha.level, ha.bounds, ?_, ⟨i, record, hget, ?_⟩, hinv⟩
          · rw [htuple', hid]
          · rw [hid]
    · -- a key that is no edge lies behind all edges
      rw [if_pos htype]
      have hhigh : ObjectId.maskEdge + 2 ^ 56 ≤ key := by
        by_contra hlt
        exact htype (typeMask_of_between ((Nat.le_add_left _ 1).trans hlow) (not_le.mp hlt))
      obtain ⟨b', heq, hinv, hlevel', htuple'⟩ := search_none h ha.inv (minFrom 4 [key])
        (maxFrom 4 []) fun r hr hmin _ => by
          obtain ⟨i, record, hget, rfl⟩ := mem_edgeRecords.mp hr
          have hle := (minFrom_concat_le_iff (tupleOf_length h _ record)
            (by decide : 0 < 4) key).mp hmin
          have hi : i + 1 < 2 ^ 56 := Nat.lt_of_succ_lt (row_lt h hget).2
          rw [tupleOf, List.getD_cons_zero, edgeId_eq hi] at hle
          omega
      exact ⟨b', heq, hlevel'.trans ha.level, ha.bounds, htuple'.trans ha.tuple, ha.row, hinv⟩
  · obtain ⟨b', heq, hinv, hlevel', htuple'⟩ := search_below h ha.inv ha.mem
      (by omega : 0 < s.level.toNat) (by have := ha.bounds.2; omega) key
    rw [seek, if_neg hzero]
    exact ⟨b', heq, hlevel'.trans ha.level, ha.bounds, htuple' ha.tuple, ha.row, hinv⟩

/-- `open_terms` in terms of what it makes of the row that it looks at. -/
theorem openTerms_eq (table : EdgeTable) (permutation : List Nat) (s : LeapfrogEdgeTableIter)
    {obj : Nat} (top : Nat) (rest : List (Nat × Nat))
    (htype : obj &&& ObjectId.typeMask = ObjectId.maskEdge) :
    (openTerms table permutation ((obj, top) :: rest) s).1 =
        (rowMatch permutation obj rest (table.get (obj &&& ObjectId.valueMask))).isSome ∧
      ∀ t, rowMatch permutation obj rest (table.get (obj &&& ObjectId.valueMask)) = some t →
        (openTerms table permutation ((obj, top) :: rest) s).2 =
          ⟨(((obj, top) :: rest).length : Int) - 1, t⟩ := by
  rw [openTerms, if_neg (not_not_intro htype), rowMatch]
  cases table.get (obj &&& ObjectId.valueMask) with
  | none => exact ⟨rfl, fun _ h => nomatch h⟩
  | some record =>
    rw [Option.bind_some]
    by_cases hbegins : (rest.map Prod.fst).isPrefixOf (tupleOf permutation obj record).tail = true
    · rw [if_pos hbegins]
      dsimp only
      rw [if_pos hbegins]
      exact ⟨rfl, fun t ht => by rw [Option.some.inj ht]⟩
    · rw [if_neg hbegins]
      dsimp only
      rw [if_neg hbegins]
      exact ⟨rfl, fun _ h => nomatch h⟩

/-- What the row of an edge makes of the ranges is the record that begins with them. -/
theorem rowMatch_iff (h : EdgeTree table permutation tree sep leaves) {v : Nat} (hv : v < 2 ^ 56)
    {rest : List (Nat × Nat)} {t : Tuple} :
    rowMatch permutation (v + ObjectId.maskEdge) rest
        (if v = 0 then none else table.get (v - 1)) = some t ↔
      t ∈ edgeRecords table permutation ∧
        (v + ObjectId.maskEdge) :: rest.map Prod.fst <+: t := by
  constructor
  · intro hmatch
    rw [rowMatch, Option.bind_eq_some_iff] at hmatch
    obtain ⟨record, hget, hmatch⟩ := hmatch
    obtain ⟨hzero, hget⟩ := Option.ite_none_left_eq_some.mp hget
    obtain ⟨hbegins, hsome⟩ := Option.ite_none_right_eq_some.mp hmatch
    obtain rfl := Option.some.inj hsome
    have hid : v - 1 + 1 ||| ObjectId.maskEdge = v + ObjectId.maskEdge := by
      rw [Nat.sub_add_cancel (Nat.one_le_iff_ne_zero.mpr hzero), edgeId_eq hv]
    refine ⟨mem_edgeRecords.mpr ⟨v - 1, record, hget, by rw [hid]⟩, ?_⟩
    rw [tupleOf, List.cons_prefix_cons]
    exact ⟨rfl, List.isPrefixOf_iff_prefix.mp hbegins⟩
  · rintro ⟨ht, hbegins⟩
    obtain ⟨i, record, hget, rfl⟩ := mem_edgeRecords.mp ht
    have hi : i + 1 < 2 ^ 56 := Nat.lt_of_succ_lt (row_lt h hget).2
    rw [tupleOf, List.cons_prefix_cons, edgeId_eq hi] at hbegins
    obtain ⟨hid, hbegins⟩ := hbegins
    obtain rfl : v = i + 1 := by omega
    have hbegins' : (rest.map Prod.fst).isPrefixOf
        (tupleOf permutation (i + 1 + ObjectId.maskEdge) record).tail = true :=
      List.isPrefixOf_iff_prefix.mpr hbegins
    rw [rowMatch, if_neg (Nat.succ_ne_zero i), Nat.add_sub_cancel, hget, Option.bind_some,
      if_pos hbegins', edgeId_eq hi]

theorem openTerms_agrees (h : EdgeTree table permutation tree sep leaves)
    (hb : LeapfrogBptIter.Inv tree sep leaves b) {ranges : List (Nat × Nat)} {opened : Bool}
    (hlen : ranges.length ≤ 4) (hwords : ∀ range ∈ ranges, range.1 < 2 ^ 64)
    (hok : CallOk table permutation opened s (.openTerms ranges)) :
    ∃ b', LeapfrogBptIter.openTerms 4 tree ranges b =
        some ((openTerms table permutation ranges s).1, b') ∧
      LeapfrogBptIter.Inv tree sep leaves b' ∧
      ((openTerms table permutation ranges s).1 = true →
        Agrees table permutation tree sep leaves (openTerms table permutation ranges s).2 b') := by
  rw [LeapfrogBptIter.openTerms]
  cases ranges with
  | nil =>
    have hlevel : s.level = -1 := hok
    obtain ⟨b', heq, hinv, hlevel', htuple⟩ :=
      search_first h (hb.level ((([] : List (Nat × Nat)).length : Int) - 1))
    rw [List.map_nil, List.map_nil, heq]
    cases hget : table.get 0 with
    | none =>
      simp only [openTerms, hget]
      exact ⟨b', rfl, hinv, fun hfalse => nomatch hfalse⟩
    | some record =>
      rw [hget] at htuple
      simp only [openTerms, hget]
      refine ⟨b', rfl, hinv, fun _ => ⟨?_, ?_, htuple, ⟨0, record, hget, rfl⟩, hinv⟩⟩
      · rw [hlevel', hlevel]
        rfl
      · rw [hlevel]
        decide
  | cons range rest =>
    obtain ⟨obj, top⟩ := range
    obtain ⟨hsingle, hrows⟩ := hok
    have hsame : ((obj, top) :: rest).map Prod.snd = ((obj, top) :: rest).map Prod.fst :=
      List.map_congr_left hsingle
    have hlen' : (((obj, top) :: rest).map Prod.fst).length ≤ 4 := by simpa using hlen
    have hword := hwords _ List.mem_cons_self
    rw [hsame]
    by_cases htype : obj &&& ObjectId.typeMask = ObjectId.maskEdge
    · obtain ⟨hfound, hstate⟩ := openTerms_eq table permutation s top rest htype
      have hrows := hrows htype
      obtain ⟨hvalue, hlt⟩ := eq_of_typeMask hword htype
      rw [hfound]
      rw [hrows] at hfound hstate ⊢
      generalize obj &&& ObjectId.valueMask = v at hvalue hlt hfound hstate hrows ⊢
      subst hvalue
      cases hmatch : rowMatch permutation (v + ObjectId.maskEdge) rest
          (if v = 0 then none else table.get (v - 1)) with
      | some t =>
        obtain ⟨ht, hbegins⟩ := (rowMatch_iff h hlt).mp hmatch
        obtain ⟨b', heq, hinv, hlevel', htuple⟩ :=
          search_prefix h (hb.level _) ht (List.cons_ne_nil _ _) hbegins
        refine ⟨b', heq, hinv, fun _ => ?_⟩
        rw [hstate t hmatch]
        obtain ⟨i, record, hget, htuple'⟩ := mem_edgeRecords.mp ht
        refine ⟨hlevel', ?_, htuple, ⟨i, record, hget, htuple'⟩, hinv⟩
        simp only [List.length_cons] at hlen ⊢
        omega
      | none =>
        obtain ⟨b', heq, hinv, _⟩ := search_none h (hb.level _) _ _ fun r hr hmin hmax => by
          have hbegins := (prefix_iff h hr hlen').mp ⟨hmin, hmax⟩
          rw [(rowMatch_iff h hlt).mpr ⟨hr, hbegins⟩] at hmatch
          cases hmatch
        exact ⟨b', heq, hinv, fun hfalse => nomatch hfalse⟩
    · have hfalse : (openTerms table permutation ((obj, top) :: rest) s).1 = false := by
        rw [openTerms, if_pos htype]
      rw [hfalse]
      obtain ⟨b', heq, hinv, _⟩ := search_none h (hb.level _) _ _ fun r hr hmin hmax => by
        have hbegins := (prefix_iff h hr hlen').mp ⟨hmin, hmax⟩
        obtain ⟨i, record, hget, rfl⟩ := mem_edgeRecords.mp hr
        rw [tupleOf, List.map_cons, List.cons_prefix_cons] at hbegins
        have hobj : obj = (i + 1) ||| ObjectId.maskEdge := hbegins.1
        apply htype
        rw [hobj, Nat.and_comm]
        exact typeMask_edge (Nat.lt_of_succ_lt (row_lt h hget).2)
      exact ⟨b', heq, hinv, fun hfalse => nomatch hfalse⟩

theorem step_agrees (h : EdgeTree table permutation tree sep leaves) {opened : Bool}
    (hb : LeapfrogBptIter.Inv tree sep leaves b)
    (ha : opened = true → Agrees table permutation tree sep leaves s b) {call : LeapfrogCall}
    (hwords : call.Words) (hok : CallOk table permutation opened s call) :
    (step table permutation s call = none ∧ LeapfrogBptIter.step 4 tree b call = none) ∨
    ∃ answer s' b', step table permutation s call = some (answer, s') ∧
      LeapfrogBptIter.step 4 tree b call = some (answer, b') ∧
      LeapfrogBptIter.Inv tree sep leaves b' ∧
      (openAfter call answer opened = true →
        Agrees table permutation tree sep leaves s' b') := by
  cases call with
  | openTerms ranges =>
    rw [step, LeapfrogBptIter.step]
    by_cases hlen : ranges.length ≤ 4
    · right
      obtain ⟨b', heq, hinv, ha'⟩ := openTerms_agrees h hb hlen hwords hok
      rw [if_pos hlen, if_pos hlen, heq, Option.map_some]
      refine ⟨_, _, b', rfl, rfl, hinv, fun hopen => ha' ?_⟩
      simpa [openAfter] using hopen
    · left
      rw [if_neg hlen, if_neg hlen]
      exact ⟨rfl, rfl⟩
  | down =>
    have ha := ha hok
    have hfour : ((4 : Nat) : Int) = 4 := rfl
    rw [step, LeapfrogBptIter.step, ha.level, hfour]
    by_cases hlevel : s.level + 1 < 4
    · right
      obtain ⟨s', b', found, hs', hb', ha'⟩ := down_agrees h ha hlevel
      rw [if_pos hlevel, if_pos hlevel, hs', hb']
      exact ⟨none, s', b', rfl, rfl, ha'.inv, fun _ => ha'⟩
    · left
      rw [if_neg hlevel, if_neg hlevel]
      exact ⟨rfl, rfl⟩
  | up =>
    have ha := ha hok
    rw [step, LeapfrogBptIter.step, ha.level]
    by_cases hlevel : 0 ≤ s.level
    · right
      rw [if_pos hlevel, if_pos hlevel]
      refine ⟨none, s.up, b.up, rfl, rfl, ha.inv.level _, fun _ => ⟨?_, ?_, ha.tuple, ha.row,
        ha.inv.level _⟩⟩
      · rw [LeapfrogBptIter.up, up, ha.level]
      · have := ha.bounds.2
        simp only [up]
        omega
    · left
      rw [if_neg hlevel, if_neg hlevel]
      exact ⟨rfl, rfl⟩
  | next =>
    obtain ⟨hopen, hkey⟩ := hok
    have ha := ha hopen
    rw [step, LeapfrogBptIter.step, ha.level]
    by_cases hlevel : 0 ≤ s.level
    · right
      obtain ⟨b', heq, ha'⟩ := next_agrees h ha hlevel hkey
      rw [if_pos hlevel, if_pos hlevel, heq]
      exact ⟨_, _, b', rfl, rfl, ha'.inv, fun _ => ha'⟩
    · left
      rw [if_neg hlevel, if_neg hlevel]
      exact ⟨rfl, rfl⟩
  | seek key =>
    obtain ⟨hopen, hkey⟩ := hok
    have ha := ha hopen
    rw [step, LeapfrogBptIter.step, ha.level]
    by_cases hlevel : 0 ≤ s.level
    · right
      obtain ⟨b', heq, ha'⟩ := seek_agrees h ha hlevel hwords hkey
      rw [if_pos hlevel, if_pos hlevel, heq]
      exact ⟨_, _, b', rfl, rfl, ha'.inv, fun _ => ha'⟩
    · left
      rw [if_neg hlevel, if_neg hlevel]
      exact ⟨rfl, rfl⟩

/-- Runs from states that agree, or before the first `open_terms` that finds something. -/
theorem answers_agree (h : EdgeTree table permutation tree sep leaves)
    (calls : List LeapfrogCall) :
    ∀ {opened : Bool} {s : LeapfrogEdgeTableIter} {b : LeapfrogBptIter},
      LeapfrogBptIter.Inv tree sep leaves b →
      (opened = true → Agrees table permutation tree sep leaves s b) →
      (∀ call ∈ calls, call.Words) → Meets table permutation opened s calls →
      leapfrogAnswers (step table permutation) (fun s => keyAt s.level s.currentTuple) opened s
          calls =
        leapfrogAnswers (LeapfrogBptIter.step 4 tree) (fun b => keyAt b.level b.currentTuple) opened
          b calls := by
  induction calls with
  | nil => exact fun _ _ _ _ => rfl
  | cons call calls ih =>
    intro opened s b hb ha hwords hmeets
    obtain ⟨hok, hmeets⟩ := hmeets
    rw [leapfrogAnswers, leapfrogAnswers]
    rcases step_agrees h hb ha (hwords call List.mem_cons_self) hok with
      ⟨hs, hb'⟩ | ⟨answer, s', b', hs, hb', hinv, ha'⟩
    · rw [hs, hb']
      rfl
    · rw [hs, hb', Option.bind_some, Option.bind_some]
      have hrest := ih hinv ha' (fun c hc => hwords c (List.mem_cons_of_mem _ hc))
        (hmeets answer s' hs)
      simp only [hrest]
      cases hopen : openAfter call answer opened with
      | false => rfl
      | true =>
        have hagree := ha' hopen
        rw [hagree.level, hagree.tuple]

/-- In every run whose calls all meet the condition, the iterator over the edge table answers as
one over a tree of the edges. -/
theorem edgeTable_answers (h : EdgeTree table permutation tree sep leaves) {memory : Tuple}
    (hcreate : LeapfrogBptIter.create 4 tree memory = some b) (memory' : Tuple)
    {calls : List LeapfrogCall} (hwords : ∀ call ∈ calls, call.Words)
    (hmeets : Meets table permutation false ⟨-1, memory'⟩ calls) :
    leapfrogAnswers (step table permutation) (fun s => keyAt s.level s.currentTuple) false
        ⟨-1, memory'⟩ calls =
      leapfrogAnswers (LeapfrogBptIter.step 4 tree) (fun b => keyAt b.level b.currentTuple) false b
        calls :=
  answers_agree h calls (LeapfrogBptIter.inv_create h.wellFormed hcreate)
    (fun hfalse => nomatch hfalse) hwords hmeets

theorem Meets.cons {opened : Bool} {s' : LeapfrogEdgeTableIter} {call : LeapfrogCall}
    {calls : List LeapfrogCall} {answer : Option Bool}
    (hok : CallOk table permutation opened s call)
    (hstep : step table permutation s call = some (answer, s'))
    (hrest : Meets table permutation (openAfter call answer opened) s' calls) :
    Meets table permutation opened s (call :: calls) := by
  refine ⟨hok, fun answer' s'' hstep' => ?_⟩
  obtain ⟨rfl, rfl⟩ := Prod.mk.inj (Option.some.inj (hstep.symm.trans hstep'))
  exact hrest

end

def oneLeaf (records : List Tuple) : BPlusTree := ⟨[.zero], [⟨records.length, 0, records⟩]⟩

theorem wellFormed_oneLeaf {records : List Tuple} (hsorted : records.Pairwise (· < ·)) :
    (oneLeaf records).WellFormed (fun _ => []) [0] where
  holds := ⟨0, _, rfl, [[0]], rfl, .cons ⟨0, rfl, rfl⟩ .nil, rfl⟩
  valueCount n hn := by
    rw [List.mem_singleton.mp hn]
    rfl
  sorted n hn := by
    rw [List.mem_singleton.mp hn]
    exact hsorted
  nonempty n hn _ := by rw [List.mem_singleton.mp hn]
  apart := List.pairwise_singleton _ _
  next before n m after h := by
    have hlen := congrArg List.length h
    simp only [List.length_append, List.length_cons, List.length_nil] at hlen
    omega
  last before n h := by
    have hn : n ∈ [0] := h ▸ by simp
    rw [List.mem_singleton.mp hn]
    rfl

def oneBlock (rows : List Tuple) (hrows : rows.length ≤ 170) : EdgeTable :=
  ⟨[], rows, EdgeTable.empty.full, hrows⟩

/-- The first edge, then the second one, then nothing more. -/
theorem edgeTable_answers_two : ∃ b,
    LeapfrogBptIter.create 4
      (oneLeaf [[1 ||| ObjectId.maskEdge, 7, 8, 9], [2 ||| ObjectId.maskEdge, 7, 8, 9]]) [] =
        some b ∧
    leapfrogAnswers (LeapfrogBptIter.step 4
        (oneLeaf [[1 ||| ObjectId.maskEdge, 7, 8, 9], [2 ||| ObjectId.maskEdge, 7, 8, 9]]))
      (fun b => keyAt b.level b.currentTuple) false b [.openTerms [], .down, .next, .next] =
      some [(some true, none), (none, some (1 ||| ObjectId.maskEdge)),
        (some true, some (2 ||| ObjectId.maskEdge)),
        (some false, some (2 ||| ObjectId.maskEdge))] := by
  have htree : EdgeTree (oneBlock [[7, 8, 9], [7, 8, 9]] (by decide)) [0, 1, 2]
      (oneLeaf [[1 ||| ObjectId.maskEdge, 7, 8, 9], [2 ||| ObjectId.maskEdge, 7, 8, 9]])
      (fun _ => []) [0] :=
    ⟨wellFormed_oneLeaf (by decide), fun r => Iff.rfl, rfl, by decide, by decide⟩
  obtain ⟨b, hb⟩ : ∃ b, LeapfrogBptIter.create 4
      (oneLeaf [[1 ||| ObjectId.maskEdge, 7, 8, 9], [2 ||| ObjectId.maskEdge, 7, 8, 9]]) [] =
        some b := ⟨_, rfl⟩
  refine ⟨b, hb, (edgeTable_answers htree hb [] ?_ ?_).symm.trans ?_⟩
  · simp [LeapfrogCall.Words]
  · refine Meets.cons ?_ rfl (Meets.cons ?_ rfl (Meets.cons ?_ rfl (Meets.cons ?_ rfl trivial)))
    · rfl
    · rfl
    · exact ⟨rfl, fun h => absurd h (by decide)⟩
    · exact ⟨rfl, fun h => absurd h (by decide)⟩
  · rfl

/-- The only edge of a table, bound by a range: the iterator over the table does not find it. -/
theorem edgeTable_bound_edge :
    EdgeTree (oneBlock [[7, 8, 9]] (by decide)) [0, 1, 2]
      (oneLeaf [[1 ||| ObjectId.maskEdge, 7, 8, 9]]) (fun _ => []) [0] ∧
    leapfrogAnswers (step (oneBlock [[7, 8, 9]] (by decide)) [0, 1, 2])
      (fun s => keyAt s.level s.currentTuple) false ⟨-1, []⟩
      [.openTerms [(1 ||| ObjectId.maskEdge, 1 ||| ObjectId.maskEdge)]] =
        some [(some false, none)] ∧
    ∃ b, LeapfrogBptIter.create 4 (oneLeaf [[1 ||| ObjectId.maskEdge, 7, 8, 9]]) [] = some b ∧
      leapfrogAnswers (LeapfrogBptIter.step 4 (oneLeaf [[1 ||| ObjectId.maskEdge, 7, 8, 9]]))
        (fun b => keyAt b.level b.currentTuple) false b
        [.openTerms [(1 ||| ObjectId.maskEdge, 1 ||| ObjectId.maskEdge)]] =
          some [(some true, some (1 ||| ObjectId.maskEdge))] := by
  refine ⟨⟨wellFormed_oneLeaf (by decide), fun r => Iff.rfl, rfl, by decide, by decide⟩, rfl, _,
    rfl, rfl⟩

end LeapfrogEdgeTableIter
end MillenniumDB
