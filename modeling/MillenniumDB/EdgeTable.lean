import MillenniumDB.BptWriter
import MillenniumDB.ObjectIds
import Mathlib.Logic.Function.Basic

/-!
# The edge table

`RandomAccessTable` keeps records of three columns in blocks of one page.  The row of an edge
holds its ends and its type; `EdgeTableLookup` finds it from the id of the edge.
-/

namespace MillenniumDB

/-- `RandomAccessTable<3>`: all blocks but the last are full. -/
structure EdgeTable where
  before : List (List Tuple)
  last : List Tuple
  full : ∀ block ∈ before, block.length = (mdbPageSize - 4) / (8 * 3)
  last_le : last.length ≤ (mdbPageSize - 4) / (8 * 3)

namespace EdgeTable

def maxRecords : Nat := (mdbPageSize - 4) / (8 * 3)

def empty : EdgeTable := ⟨[], [], by simp, Nat.zero_le _⟩

/-- `append_record`, and `insert_tuple` of the import: a record that does not fit the last block
starts a new one. -/
def appendRecord (t : EdgeTable) (record : Tuple) : EdgeTable :=
  if h : t.last.length < maxRecords then
    { t with
      last := t.last ++ [record]
      last_le := by rw [List.length_append]; exact h }
  else
    { before := t.before ++ [t.last]
      last := [record]
      full := by
        intro block hblock
        rcases List.mem_append.mp hblock with hblock | hblock
        · exact t.full block hblock
        · rw [List.mem_singleton.mp hblock]
          exact Nat.le_antisymm t.last_le (Nat.not_lt.mp h)
      last_le := Nat.le_of_lt (show 1 < (mdbPageSize - 4) / (8 * 3) by decide) }

/-- `operator[]`. -/
def get (t : EdgeTable) (pos : Nat) : Option Tuple :=
  (t.before ++ [t.last])[pos / maxRecords]?.bind fun block => block[pos % maxRecords]?

def rows (t : EdgeTable) : List Tuple := t.before.flatten ++ t.last

@[simp] theorem rows_empty : empty.rows = [] := rfl

@[simp] theorem rows_appendRecord (t : EdgeTable) (record : Tuple) :
    (t.appendRecord record).rows = t.rows ++ [record] := by
  simp only [appendRecord]
  split_ifs <;> simp [rows]

theorem getElem?_flatten {blocks : List (List Tuple)} {last : List Tuple} {size : Nat}
    (hsize : 0 < size) (hfull : ∀ block ∈ blocks, block.length = size) (hlast : last.length ≤ size)
    (pos : Nat) : ((blocks ++ [last])[pos / size]?.bind fun block => block[pos % size]?) =
      (blocks.flatten ++ last)[pos]? := by
  induction blocks generalizing pos with
  | nil =>
    by_cases hpos : pos < size
    · simp [Nat.div_eq_of_lt hpos, Nat.mod_eq_of_lt hpos]
    · have hdiv : 1 ≤ pos / size := (Nat.one_le_div_iff hsize).mpr (Nat.not_lt.mp hpos)
      have hnone : last[pos]? = none := List.getElem?_eq_none (by omega)
      rw [List.nil_append, List.getElem?_eq_none (by simpa using hdiv), List.flatten_nil,
        List.nil_append, hnone]
      rfl
  | cons block blocks ih =>
    have hblock := hfull block List.mem_cons_self
    rw [List.flatten_cons, List.append_assoc]
    by_cases hpos : pos < size
    · have hleft : (block ++ (blocks.flatten ++ last))[pos]? = block[pos]? :=
        List.getElem?_append_left (by omega)
      simp [Nat.div_eq_of_lt hpos, Nat.mod_eq_of_lt hpos, hleft]
    · have hle := Nat.not_lt.mp hpos
      have hrest := ih (fun b hb => hfull b (List.mem_cons_of_mem _ hb)) (pos - size)
      have hright : (block ++ (blocks.flatten ++ last))[pos]? =
          (blocks.flatten ++ last)[pos - size]? := by
        rw [List.getElem?_append_right (by omega), hblock]
      rw [hright, ← hrest, Nat.mod_eq_sub_mod hle, Nat.div_eq_sub_div hsize hle]
      rfl

theorem get_eq (t : EdgeTable) (pos : Nat) : t.get pos = t.rows[pos]? :=
  getElem?_flatten (by decide) t.full t.last_le pos

end EdgeTable

/-- `Id`: a variable or an id. -/
inductive Id
  | var (name : Nat)
  | object (id : Nat)
  deriving DecidableEq

/-- `BindingId`: the object that each variable is bound to; 0 is null. -/
abbrev Binding := Nat → Nat

def checkId (binding : Binding) (id : Id) (objId : Nat) : Option Binding :=
  match id with
  | .var v =>
    if binding v ≠ 0 ∧ binding v ≠ objId then none else some (Function.update binding v objId)
  | .object value => if value ≠ 0 ∧ value ≠ objId then none else some binding

structure EdgeTableLookup where
  edge : Id
  source : Id
  target : Id
  type : Id

namespace EdgeTableLookup

def edgeAssignation (lookup : EdgeTableLookup) (binding : Binding) : Nat :=
  match lookup.edge with
  | .var v => binding v
  | .object id => id

/-- `next`, the first time after `begin` or `reset`. -/
def next (lookup : EdgeTableLookup) (table : EdgeTable) (binding : Binding) :
    Except Failure (Option Binding) :=
  let edgeAssignation := lookup.edgeAssignation binding
  if ObjectId.typeMask &&& edgeAssignation ≠ ObjectId.maskEdge then .ok none
  else
    let edgeId := ObjectId.valueMask &&& edgeAssignation
    if edgeId = 0 then .error .assertion
    else
      match table.get (edgeId - 1) with
      | none => .ok none
      | some record =>
        .ok (do
          let binding ← checkId binding lookup.source (record.getD 0 0)
          let binding ← checkId binding lookup.target (record.getD 1 0)
          checkId binding lookup.type (record.getD 2 0))

end EdgeTableLookup

theorem valueMask_edge {k : Nat} (hk : k < 2 ^ 56) :
    ObjectId.valueMask &&& (k ||| ObjectId.maskEdge) = k := by
  have hmask : ObjectId.valueMask = 2 ^ 56 - 1 := by decide
  rw [hmask, Nat.and_comm, Nat.and_two_pow_sub_one_eq_mod, Nat.or_mod_two_pow]
  have hedge : ObjectId.maskEdge % 2 ^ 56 = 0 := by decide
  rw [hedge, Nat.or_zero, Nat.mod_eq_of_lt hk]

theorem typeMask_edge {k : Nat} (hk : k < 2 ^ 56) :
    ObjectId.typeMask &&& (k ||| ObjectId.maskEdge) = ObjectId.maskEdge := by
  rw [Nat.and_or_distrib_left]
  have hzero : ObjectId.typeMask &&& k = 0 := by
    have hmask : ObjectId.typeMask = 2 ^ 56 * 255 := by decide
    apply Nat.eq_of_testBit_eq
    intro i
    rw [Nat.testBit_and, Nat.zero_testBit, hmask, Nat.testBit_two_pow_mul]
    by_cases hi : 56 ≤ i
    · rw [Nat.testBit_lt_two_pow (lt_of_lt_of_le hk (Nat.pow_le_pow_right (by decide) hi)),
        Bool.and_false]
    · simp [hi]
  have hedge : ObjectId.typeMask &&& ObjectId.maskEdge = ObjectId.maskEdge := by decide
  rw [hzero, hedge, Nat.zero_or]

theorem edge_inj {j k : Nat} (hj : j < 2 ^ 56) (hk : k < 2 ^ 56)
    (h : j ||| ObjectId.maskEdge = k ||| ObjectId.maskEdge) : j = k := by
  rw [← valueMask_edge hj, h, valueMask_edge hk]

namespace EdgeTableLookup

theorem next_free {lookup : EdgeTableLookup} {table : EdgeTable} {k source target type : Nat}
    (hpos : 0 < k) (hk : k < 2 ^ 56) (hrow : table.rows[k - 1]? = some [source, target, type])
    (binding : Binding) (hedge : lookup.edgeAssignation binding = k ||| ObjectId.maskEdge) :
    lookup.next table binding = .ok (do
      let binding ← checkId binding lookup.source source
      let binding ← checkId binding lookup.target target
      checkId binding lookup.type type) := by
  simp only [next]
  rw [hedge, if_neg (not_not_intro (typeMask_edge hk)), valueMask_edge hk, if_neg (by omega),
    EdgeTable.get_eq, hrow]
  rfl

end EdgeTableLookup

end MillenniumDB
