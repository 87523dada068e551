import MillenniumDB.ImportIndexes
import MillenniumDB.InsertFacts
import Mathlib.Tactic.FinCases

/-!
# Edges with equal ends or types

Two functions write the records of `equal_from_to`, `equal_from_type`, `equal_to_type` and
`equal_from_to_type`: `save_edge_type` of the import and `exec_inserts`.  A plan for a repeated
variable reads the records by the order of columns that is documented beside the indexes.
-/

namespace MillenniumDB

open Import (Collections recordsOf)
open Import.OnDiskImport (pushEdge)

/-- What an edge line has when its type is read.  With the direction to the left the second id is
where the edge starts. -/
structure EdgeLine where
  id1 : Nat
  id2 : Nat
  typeId : Nat
  edgeId : Nat
  direction : Bool
  deriving DecidableEq

def equalIndexes : List Index := [.equalFromTo, .equalFromType, .equalToType, .equalFromToType]

def pushEdges (lines : List EdgeLine) : Collections :=
  lines.foldl (fun c l => pushEdge l.id1 l.id2 l.typeId l.edgeId l.direction c) .empty

namespace EdgeLine

def source (l : EdgeLine) : Nat := if l.direction then l.id1 else l.id2

def target (l : EdgeLine) : Nat := if l.direction then l.id2 else l.id1

/-- The records that `exec_inserts` writes for the edge. -/
def inserted (l : EdgeLine) : List (Index × Tuple) :=
  rowsOf (connectionWrites l.source l.target l.typeId l.edgeId ++
    equalWrites l.source l.target l.typeId l.edgeId)

/-- The records of an edge as documented: the value that is shared, then what remains of the two
ends and the type, then the edge. -/
def documented (l : EdgeLine) : Index → List Tuple
  | .equalFromTo => if l.source = l.target then [[l.source, l.typeId, l.edgeId]] else []
  | .equalFromType => if l.source = l.typeId then [[l.source, l.target, l.edgeId]] else []
  | .equalToType => if l.target = l.typeId then [[l.target, l.source, l.edgeId]] else []
  | .equalFromToType =>
    if l.source = l.target ∧ l.source = l.typeId then [[l.source, l.edgeId]] else []
  | _ => []

/-- The records that `save_edge_type` pushes for the edge. -/
def pushed (l : EdgeLine) : Index → List Tuple :=
  recordsOf (pushEdge l.id1 l.id2 l.typeId l.edgeId l.direction .empty)

end EdgeLine

/-- Both functions write, for each of the indexes, exactly the edges with its equality, with the
documented columns. -/
def SameEqualRows (lines : List EdgeLine) : Prop :=
  ∀ i ∈ equalIndexes,
    recordsOf (pushEdges lines) i = recordsFor i (lines.flatMap EdgeLine.inserted) ∧
      recordsOf (pushEdges lines) i = lines.flatMap fun l => l.documented i

section

variable {lines : List EdgeLine} {l : EdgeLine} {i : Index}

theorem recordsOf_pushEdge (hi : i ∈ equalIndexes) (l : EdgeLine) (c : Collections) :
    recordsOf (pushEdge l.id1 l.id2 l.typeId l.edgeId l.direction c) i =
      recordsOf c i ++ l.pushed i := by
  fin_cases hi <;> simp [recordsOf, pushEdge, EdgeLine.pushed, Collections.empty]

theorem recordsOf_pushEdges (hi : i ∈ equalIndexes) (lines : List EdgeLine) :
    recordsOf (pushEdges lines) i = lines.flatMap fun l => l.pushed i := by
  have hfold (c : Collections) :
      recordsOf (lines.foldl (fun c l =>
        pushEdge l.id1 l.id2 l.typeId l.edgeId l.direction c) c) i =
      recordsOf c i ++ lines.flatMap fun l => l.pushed i := by
    induction lines generalizing c with
    | nil => exact (List.append_nil _).symm
    | cons l lines ih =>
      rw [List.foldl_cons, ih, recordsOf_pushEdge hi, List.flatMap_cons, List.append_assoc]
  refine (hfold .empty).trans ?_
  have hempty : recordsOf .empty i = [] := by fin_cases hi <;> rfl
  rw [hempty, List.nil_append]

theorem recordsFor_flatMap (i : Index) (lines : List EdgeLine) :
    recordsFor i (lines.flatMap EdgeLine.inserted) =
      lines.flatMap fun l => recordsFor i l.inserted := by
  induction lines with
  | nil => rfl
  | cons l lines ih => rw [List.flatMap_cons, recordsFor_append, ih, List.flatMap_cons]

/-- `exec_inserts` keeps to the documented columns. -/
theorem EdgeLine.recordsFor_inserted (hi : i ∈ equalIndexes) (l : EdgeLine) :
    recordsFor i l.inserted = l.documented i := by
  rw [inserted, rowsOf_append, recordsFor_append, rowsOf_connectionWrites, rowsOf_equalWrites]
  fin_cases hi <;>
    by_cases hft : l.source = l.target <;> by_cases hfy : l.source = l.typeId <;>
      by_cases hty : l.typeId = l.target <;>
        simp_all [recordsFor, documented, eq_comm]

theorem EdgeLine.length_pushed (hi : i ∈ equalIndexes) (l : EdgeLine) :
    (l.pushed i).length = (l.documented i).length := by
  obtain ⟨id1, id2, typeId, edgeId, direction⟩ := l
  fin_cases hi <;> cases direction <;>
    simp [pushed, recordsOf, pushEdge, Collections.empty, documented, source, target,
      apply_ite List.length, eq_comm]
  all_goals grind

/-- The import keeps to the documented columns unless the second id of a line alone is the type. -/
theorem EdgeLine.pushed_eq_iff (l : EdgeLine) :
    (∀ i ∈ equalIndexes, l.pushed i = l.documented i) ↔ (l.id2 = l.typeId → l.id1 = l.id2) := by
  obtain ⟨id1, id2, typeId, edgeId, direction⟩ := l
  constructor
  · intro h htype
    obtain rfl : id2 = typeId := htype
    cases direction with
    | true =>
      have hto := h .equalToType (by decide)
      simpa [pushed, recordsOf, pushEdge, Collections.empty, documented, source, target,
        Import.tuple3, eq_comm] using hto
    | false =>
      have hfrom := h .equalFromType (by decide)
      simpa [pushed, recordsOf, pushEdge, Collections.empty, documented, source, target,
        Import.tuple3, eq_comm] using hfrom
  · intro h i hi
    replace h : id2 = typeId → id1 = id2 := h
    fin_cases hi <;> cases direction <;>
      simp [pushed, recordsOf, pushEdge, Collections.empty, documented, source, target]
    all_goals grind [Import.tuple3, Import.tuple2]

theorem flatMap_eq_iff {α β : Type} {f g : α → List β} {as : List α}
    (h : ∀ a, (f a).length = (g a).length) :
    as.flatMap f = as.flatMap g ↔ ∀ a ∈ as, f a = g a := by
  induction as with
  | nil => simp
  | cons a as ih =>
    rw [List.flatMap_cons, List.flatMap_cons, List.forall_mem_cons, ← ih]
    constructor
    · exact fun heq => List.append_inj heq (h a)
    · exact fun heq => congrArg₂ (· ++ ·) heq.1 heq.2

/-- Exactly when the two functions write the same records. -/
theorem sameEqualRows_iff (lines : List EdgeLine) :
    SameEqualRows lines ↔ ∀ l ∈ lines, l.id2 = l.typeId → l.id1 = l.id2 := by
  have hlines : SameEqualRows lines ↔ ∀ i ∈ equalIndexes, ∀ l ∈ lines,
      l.pushed i = l.documented i := by
    apply forall₂_congr
    intro i hi
    have hinserted : recordsFor i (lines.flatMap EdgeLine.inserted) =
        lines.flatMap fun l => l.documented i := by
      rw [recordsFor_flatMap]
      congr 1
      funext l
      exact l.recordsFor_inserted hi
    rw [hinserted, recordsOf_pushEdges hi, and_self]
    exact flatMap_eq_iff fun l => l.length_pushed hi
  rw [hlines]
  constructor
  · exact fun h l hl => l.pushed_eq_iff.mp fun i hi => h i hi l hl
  · exact fun h i hi l hl => l.pushed_eq_iff.mpr (h l hl) i hi

def ownType : EdgeLine := ⟨1, 2, 2, 3, true⟩

theorem not_sameEqualRows_ownType : ¬ SameEqualRows [ownType] := by
  intro h
  have hto := (h .equalToType (by decide)).2
  exact absurd hto (by decide)

end

end MillenniumDB
