import MillenniumDB.EdgeTable
import MillenniumDB.StatsProcessor
import Mathlib.Data.List.Sort

/-!
# INSERT

The database of the quad model: its B+ trees, the edge table and the catalog.  `exec_inserts`
writes a query into it, one record after the other; a record that a tree holds already raises an
exception, and what was written before stays.
-/

namespace MillenniumDB

open Import (column)

/-- The B+ trees of `QuadModel`. -/
inductive Index
  | nodes
  | labelNode
  | nodeLabel
  | objectKeyValue
  | keyValueObject
  | fromToTypeEdge
  | toTypeFromEdge
  | typeFromToEdge
  | typeToFromEdge
  | equalFromTo
  | equalFromType
  | equalToType
  | equalFromToType
  | equalFromToInverted
  | equalFromTypeInverted
  | equalToTypeInverted
  deriving DecidableEq

structure QuadCatalog where
  identifiableNodesCount : Nat
  anonymousNodesCount : Nat
  connectionsCount : Nat
  labelCount : Nat
  propertiesCount : Nat
  distinctLabels : Nat
  distinctKeys : Nat
  distinctFrom : Nat
  distinctTo : Nat
  distinctType : Nat
  equalFromToCount : Nat
  equalFromTypeCount : Nat
  equalToTypeCount : Nat
  equalFromToTypeCount : Nat
  label2totalCount : Counts Nat
  key2totalCount : Counts Nat
  key2distinct : Counts Nat
  type2totalCount : Counts Nat
  type2equalFromToTypeCount : Counts Nat
  type2equalFromToCount : Counts Nat
  type2equalFromTypeCount : Counts Nat
  type2equalToTypeCount : Counts Nat

/-- `QuadModel`: a tree is the list of its records in order. -/
structure Database where
  index : Index → List Tuple
  edgeTable : EdgeTable
  catalog : QuadCatalog

def QuadCatalog.empty : QuadCatalog :=
  ⟨0, 0, 0, 0, 0, 0, 0, 0, 0, 0, 0, 0, 0, 0, ∅, ∅, ∅, ∅, ∅, ∅, ∅, ∅⟩

def Database.empty : Database := ⟨fun _ => [], .empty, .empty⟩

inductive QueryElement
  | var (name : Bytes)
  | namedNode (name : Bytes)
  | anonymousNode (id : UInt64)
  | edge (id : UInt64)
  | string (str : Bytes)
  | bool (value : Bool)
  | int (value : Int)
  | float (bits : UInt32)

structure OpLabel where
  node : QueryElement
  label : Bytes

structure OpProperty where
  node : QueryElement
  key : Bytes
  value : QueryElement

structure OpEdge where
  source : QueryElement
  target : QueryElement
  type : QueryElement

structure OpInsert where
  labels : List OpLabel
  properties : List OpProperty
  edges : List OpEdge

/-- `QueryElementToObjectId` that creates strings.  The string manager gives every string an
id. -/
def getOrCreateObjectId (strId : Bytes → UInt64) : QueryElement → Except String Nat
  | .var _ => .error "Var cannot be converted into ObjectId"
  | .namedNode name =>
    .ok (stringId name ObjectId.maskNamedNodeInlined ObjectId.maskNamedNodeExtern)
  | .string str => .ok (stringId str ObjectId.maskStringInlined ObjectId.maskStringExtern)
  | .anonymousNode id => .ok (ObjectId.maskAnon ||| id.toNat)
  | .edge id => .ok (ObjectId.maskEdge ||| id.toNat)
  | .bool value => .ok (ObjectId.maskBool ||| if value then 1 else 0)
  | .int value =>
    match Inliner.inlineInt value with
    | .ok id => .ok id
    | .error _ => .error "saving big integers (>= 2^56)"
  | .float bits => .ok (ObjectId.maskFloat ||| bits.toNat)
where
  /-- `get_string_id`. -/
  stringId (str : Bytes) (maskInlined maskExternal : Nat) : Nat :=
    if str.length < 8 then Inliner.inlineString str ||| maskInlined
    else (strId str).toNat ||| maskExternal

abbrev Exec := EStateM String Database

namespace Exec

/-- `insert` of a tree. -/
def insert (i : Index) (record : Tuple) : Exec Unit := fun db =>
  if record ∈ db.index i then .error "Inserting duplicated record into BPlusTree." db
  else
    .ok () { db with
      index := Function.update db.index i ((db.index i).orderedInsert (· ≤ ·) record) }

def modifyCatalog (f : QuadCatalog → QuadCatalog) : Exec Unit :=
  modify fun db => { db with catalog := f db.catalog }

def tryAddNode (nodeId : Nat) : Exec Unit := do
  try
    insert .nodes [nodeId]
    if nodeId &&& ObjectId.typeMask = ObjectId.maskAnon then
      modifyCatalog fun c => { c with anonymousNodesCount := c.anonymousNodesCount + 1 }
    else
      modifyCatalog fun c => { c with identifiableNodesCount := c.identifiableNodesCount + 1 }
  catch _ => pure ()

def appendRecord (record : Tuple) : Exec Unit :=
  modify fun db => { db with edgeTable := db.edgeTable.appendRecord record }

def objectId (strId : Bytes → UInt64) (element : QueryElement) : Exec Nat :=
  match getOrCreateObjectId strId element with
  | .ok id => pure id
  | .error e => throw e

end Exec

/-- A statement of `exec_inserts` that writes. -/
inductive Write
  | node (nodeId : Nat)
  | row (i : Index) (record : Tuple)
  | append (record : Tuple)
  | catalog (f : QuadCatalog → QuadCatalog)
  /-- Writes to the catalog if some record of a tree begins with two given ids. -/
  | catalogIfAny (i : Index) (first second : Nat) (f : QuadCatalog → QuadCatalog)

open Exec

def Write.run : Write → Exec Unit
  | node nodeId => tryAddNode nodeId
  | row i record => insert i record
  | append record => appendRecord record
  | catalog f => modifyCatalog f
  | catalogIfAny i first second f => do
    if (← get).index i |>.any fun r => column 0 r = first ∧ column 1 r = second then
      modifyCatalog f

def runWrites : List Write → Exec Unit
  | [] => pure ()
  | w :: ws => do
    w.run
    runWrites ws

def labelWrites (labelId nodeId : Nat) : List Write :=
  [.node nodeId,
    .row .labelNode [labelId, nodeId],
    .row .nodeLabel [nodeId, labelId],
    .catalog fun c => { c with labelCount := c.labelCount + 1 },
    .catalog fun c => { c with label2totalCount := c.label2totalCount.bump labelId },
    .catalog fun c => { c with distinctLabels := c.label2totalCount.size }]

def propertyWrites (objId keyId valId : Nat) : List Write :=
  [.node objId,
    .row .keyValueObject [keyId, valId, objId],
    .row .objectKeyValue [objId, keyId, valId],
    .catalog fun c => { c with propertiesCount := c.propertiesCount + 1 },
    .catalog fun c => { c with key2totalCount := c.key2totalCount.bump keyId },
    .catalogIfAny .keyValueObject keyId valId fun c =>
      { c with key2distinct := c.key2distinct.bump keyId },
    .catalog fun c => { c with distinctKeys := c.key2totalCount.size }]

def connectionWrites (source target type edgeId : Nat) : List Write :=
  [.catalog fun c => { c with connectionsCount := c.connectionsCount + 1 },
    .node source,
    .node target,
    .node type,
    .row .typeFromToEdge [type, source, target, edgeId],
    .row .typeToFromEdge [type, target, source, edgeId],
    .row .fromToTypeEdge [source, target, type, edgeId],
    .row .toTypeFromEdge [target, type, source, edgeId],
    .append [source, target, type],
    .catalog fun c => { c with connectionsCount := c.connectionsCount + 1 },
    .catalog fun c => { c with type2totalCount := c.type2totalCount.bump type },
    .catalog fun c => { c with distinctType := c.type2totalCount.size }]

def equalWrites (source target type edgeId : Nat) : List Write :=
  (if source = target then
    ([.row .equalFromTo [source, type, edgeId],
      .row .equalFromToInverted [type, source, edgeId],
      .catalog fun c => { c with equalFromToCount := c.equalFromToCount + 1 },
      .catalog fun c =>
        { c with type2equalFromToCount := c.type2equalFromToCount.bump type }] : List Write) ++
    if source = type then
      [.row .equalFromToType [source, edgeId],
        .catalog fun c => { c with equalFromToTypeCount := c.equalFromToTypeCount + 1 },
        .catalog fun c =>
          { c with type2equalFromToTypeCount := c.type2equalFromToTypeCount.bump type }]
    else []
  else [] : List Write) ++
  (if source = type then
    [.row .equalFromType [source, target, edgeId],
      .row .equalFromTypeInverted [target, source, edgeId],
      .catalog fun c => { c with equalFromTypeCount := c.equalFromTypeCount + 1 },
      .catalog fun c => { c with type2equalFromTypeCount := c.type2equalFromTypeCount.bump type }]
  else [] : List Write) ++
  (if type = target then
    [.row .equalToType [target, source, edgeId],
      .row .equalToTypeInverted [source, target, edgeId],
      .catalog fun c => { c with equalToTypeCount := c.equalToTypeCount + 1 },
      .catalog fun c => { c with type2equalToTypeCount := c.type2equalToTypeCount.bump type }]
  else [] : List Write)

section

variable (strId : Bytes → UInt64)

/-- The round of `exec_inserts` for a label. -/
def insertLabel (opLabel : OpLabel) : Exec Unit := do
  let labelId ← objectId strId (.string opLabel.label)
  let nodeId ← objectId strId opLabel.node
  runWrites (labelWrites labelId nodeId)

/-- The round of `exec_inserts` for a property. -/
def insertProperty (opProperty : OpProperty) : Exec Unit := do
  let objId ← objectId strId opProperty.node
  let keyId ← objectId strId (.string opProperty.key)
  let valId ← objectId strId opProperty.value
  runWrites (propertyWrites objId keyId valId)

/-- The round of `exec_inserts` for an edge.  The first statement adds one to
`connections_count`, which gives the id of the edge. -/
def insertEdge (opEdge : OpEdge) : Exec Unit := do
  let source ← objectId strId opEdge.source
  let target ← objectId strId opEdge.target
  let type ← objectId strId opEdge.type
  let edgeId := ((← get).catalog.connectionsCount + 1) ||| ObjectId.maskEdge
  runWrites (connectionWrites source target type edgeId ++ equalWrites source target type edgeId)

def execInserts (opInsert : OpInsert) : Exec Unit := do
  opInsert.labels.forM (insertLabel strId)
  opInsert.properties.forM (insertProperty strId)
  opInsert.edges.forM (insertEdge strId)

end

namespace Database

def addNode (nodeId : Nat) (db : Database) : Database :=
  if [nodeId] ∈ db.index .nodes then db
  else
    { db with
      index := Function.update db.index .nodes ((db.index .nodes).orderedInsert (· ≤ ·) [nodeId])
      catalog :=
        if nodeId &&& ObjectId.typeMask = ObjectId.maskAnon then
          { db.catalog with anonymousNodesCount := db.catalog.anonymousNodesCount + 1 }
        else { db.catalog with identifiableNodesCount := db.catalog.identifiableNodesCount + 1 } }

end Database

namespace Write

def target : Write → Option (Index × Tuple)
  | row i record => some (i, record)
  | _ => none

def apply : Write → Database → Database
  | node nodeId, db => db.addNode nodeId
  | row i record, db =>
    { db with
      index := Function.update db.index i ((db.index i).orderedInsert (· ≤ ·) record) }
  | append record, db => { db with edgeTable := db.edgeTable.appendRecord record }
  | catalog f, db => { db with catalog := f db.catalog }
  | catalogIfAny i first second f, db =>
    if (db.index i).any fun r => column 0 r = first ∧ column 1 r = second then
      { db with catalog := f db.catalog }
    else db

variable {w : Write} {db : Database}

theorem run_node (nodeId : Nat) : (node nodeId).run db = .ok () (db.addNode nodeId) := by
  by_cases hnode : [nodeId] ∈ db.index .nodes
  · simp [run, tryAddNode, Database.addNode, Exec.insert, hnode, tryCatch, tryCatchThe, bind,
      MonadExceptOf.tryCatch, EStateM.tryCatch, EStateM.bind, pure, EStateM.pure]
    rfl
  · by_cases hanon : nodeId &&& ObjectId.typeMask = ObjectId.maskAnon
    · simp [run, tryAddNode, Database.addNode, Exec.insert, hnode, hanon, tryCatch, tryCatchThe,
        bind, MonadExceptOf.tryCatch, EStateM.tryCatch, EStateM.bind]
      rfl
    · simp [run, tryAddNode, Database.addNode, Exec.insert, hnode, hanon, tryCatch, tryCatchThe,
        bind, MonadExceptOf.tryCatch, EStateM.tryCatch, EStateM.bind]
      rfl

theorem run_eq : w.run db = if ∃ row ∈ w.target, row.2 ∈ db.index row.1 then
    .error "Inserting duplicated record into BPlusTree." db else .ok () (w.apply db) := by
  cases w with
  | node nodeId => exact run_node nodeId
  | row i record => simp [run, target, apply, Exec.insert]
  | append record => rfl
  | catalog f => rfl
  | catalogIfAny i first second f =>
    have htarget : ¬ ∃ row ∈ (catalogIfAny i first second f).target, row.2 ∈ db.index row.1 := by
      rintro ⟨row, hrow, -⟩
      cases hrow
    rw [if_neg htarget]
    show (if (db.index i).any fun r => column 0 r = first ∧ column 1 r = second then
      modifyCatalog f else pure () : Exec Unit) db = .ok () ((catalogIfAny i first second f).apply db)
    rw [apply]
    split_ifs
    · rfl
    · rfl

theorem index_addNode_eq (nodeId : Nat) : (db.addNode nodeId).index =
    if [nodeId] ∈ db.index .nodes then db.index
    else
      Function.update db.index .nodes ((db.index .nodes).orderedInsert (· ≤ ·) [nodeId]) := by
  rw [Database.addNode]
  split_ifs <;> rfl

theorem index_addNode {nodeId : Nat} {i : Index} (hi : i ≠ .nodes) :
    (db.addNode nodeId).index i = db.index i := by
  rw [index_addNode_eq]
  split_ifs
  · rfl
  · exact Function.update_of_ne hi _ _

theorem edgeTable_addNode (nodeId : Nat) : (db.addNode nodeId).edgeTable = db.edgeTable := by
  rw [Database.addNode]
  split_ifs <;> rfl

theorem catalog_addNode (nodeId : Nat) : ∃ identifiable anonymous, (db.addNode nodeId).catalog =
    { db.catalog with
      identifiableNodesCount := identifiable
      anonymousNodesCount := anonymous } := by
  rw [Database.addNode]
  split_ifs
  · exact ⟨_, _, rfl⟩
  · exact ⟨_, _, rfl⟩
  · exact ⟨_, _, rfl⟩

theorem index_apply (i : Index) (hi : i ≠ .nodes) : ((w.apply db).index i).Perm
    (w.target.toList.filterMap (fun row => if row.1 = i then some row.2 else none) ++
      db.index i) := by
  cases w with
  | node nodeId =>
    rw [apply, index_addNode hi]
    exact .refl _
  | row j record =>
    by_cases hj : j = i
    · subst hj
      simpa [apply, target] using List.perm_orderedInsert (· ≤ ·) record (db.index j)
    · simp [apply, target, hj, Function.update_of_ne (Ne.symm hj)]
  | append record => exact .refl _
  | catalog f => exact .refl _
  | catalogIfAny j first second f =>
    rw [apply]
    split_ifs <;> exact .refl _

theorem length_apply (i : Index) : (db.index i).length ≤ ((w.apply db).index i).length := by
  cases w with
  | node nodeId =>
    rw [apply, index_addNode_eq]
    split_ifs
    · exact Nat.le_refl _
    · by_cases hi : i = .nodes
      · subst hi
        simp [List.orderedInsert_length]
      · simp [Function.update_of_ne hi]
  | row j record =>
    by_cases hi : i = j
    · subst hi
      simp [apply, List.orderedInsert_length]
    · simp [apply, Function.update_of_ne hi]
  | append record => exact Nat.le_refl _
  | catalog f => exact Nat.le_refl _
  | catalogIfAny j first second f =>
    rw [apply]
    split_ifs <;> exact Nat.le_refl _

end Write

def rowsOf (ws : List Write) : List (Index × Tuple) := ws.filterMap Write.target

def recordsFor (i : Index) (rows : List (Index × Tuple)) : List Tuple :=
  rows.filterMap fun row => if row.1 = i then some row.2 else none

def applyWrites (ws : List Write) (db : Database) : Database :=
  ws.foldl (fun db w => w.apply db) db

def Fresh (rows : List (Index × Tuple)) (db : Database) : Prop :=
  rows.Nodup ∧ ∀ row ∈ rows, row.2 ∉ db.index row.1

section

variable {ws ws' : List Write} {db db' : Database} {i : Index} {record : Tuple} {e : String}

theorem mem_recordsFor {rows : List (Index × Tuple)} :
    record ∈ recordsFor i rows ↔ (i, record) ∈ rows := by
  simp only [recordsFor, List.mem_filterMap]
  constructor
  · rintro ⟨row, hrow, h⟩
    split_ifs at h with hi
    cases h
    rw [← hi]
    exact hrow
  · intro h
    exact ⟨_, h, if_pos rfl⟩

theorem recordsFor_append (rows rows' : List (Index × Tuple)) :
    recordsFor i (rows ++ rows') = recordsFor i rows ++ recordsFor i rows' :=
  List.filterMap_append

theorem index_applyWrites (ws : List Write) (db : Database) (hi : i ≠ .nodes) :
    ((applyWrites ws db).index i).Perm (recordsFor i (rowsOf ws) ++ db.index i) := by
  induction ws generalizing db with
  | nil => exact .refl _
  | cons w ws ih =>
    have hw := @Write.index_apply w db i hi
    have hcons : rowsOf (w :: ws) = w.target.toList ++ rowsOf ws := by
      cases hw : w.target <;> simp [rowsOf, hw]
    rw [hcons, recordsFor_append, List.append_assoc]
    refine (ih (w.apply db)).trans ((hw.append_left _).trans ?_)
    exact List.perm_append_comm_assoc _ _ _

theorem mem_index_applyWrites (hi : i ≠ .nodes) :
    record ∈ (applyWrites ws db).index i ↔ (i, record) ∈ rowsOf ws ∨ record ∈ db.index i := by
  rw [(index_applyWrites ws db hi).mem_iff, List.mem_append, mem_recordsFor]

theorem length_applyWrites (ws : List Write) (db : Database) (i : Index) :
    (db.index i).length ≤ ((applyWrites ws db).index i).length := by
  induction ws generalizing db with
  | nil => exact Nat.le_refl _
  | cons w ws ih => exact (Write.length_apply i).trans (ih (w.apply db))

theorem applyWrites_append (ws ws' : List Write) (db : Database) :
    applyWrites (ws ++ ws') db = applyWrites ws' (applyWrites ws db) :=
  List.foldl_append

theorem rowsOf_append (ws ws' : List Write) : rowsOf (ws ++ ws') = rowsOf ws ++ rowsOf ws' :=
  List.filterMap_append

theorem fresh_nil : Fresh [] db := ⟨List.nodup_nil, fun _ h => absurd h List.not_mem_nil⟩

theorem fresh_append {rows : List (Index × Tuple)} (hnodes : ∀ row ∈ rows, row.1 ≠ .nodes) :
    Fresh (rowsOf ws ++ rows) db ↔ Fresh (rowsOf ws) db ∧ Fresh rows (applyWrites ws db) := by
  have hmem : ∀ row ∈ rows, row.2 ∉ (applyWrites ws db).index row.1 ↔
      row ∉ rowsOf ws ∧ row.2 ∉ db.index row.1 := by
    intro row hrow
    rw [mem_index_applyWrites (hnodes row hrow)]
    exact not_or
  simp only [Fresh, List.nodup_append, List.mem_append]
  constructor
  · intro h
    refine ⟨⟨h.1.1, fun row hrow => h.2 row (.inl hrow)⟩, h.1.2.1, fun row hrow => ?_⟩
    exact (hmem row hrow).mpr
      ⟨fun hrow' => h.1.2.2 row hrow' row hrow rfl, h.2 row (.inr hrow)⟩
  · intro h
    refine ⟨⟨h.1.1, h.2.1, ?_⟩, ?_⟩
    · intro row hrow row' hrow' heq
      exact ((hmem row' hrow').mp (h.2.2 row' hrow')).1 (heq ▸ hrow)
    · intro row hrow
      rcases hrow with hrow | hrow
      · exact h.1.2 row hrow
      · exact ((hmem row hrow).mp (h.2.2 row hrow)).2

def Write.Keeps {α : Type} (g : QuadCatalog → α) : Write → Prop
  | node _ => ∀ c identifiable anonymous, g { c with
      identifiableNodesCount := identifiable
      anonymousNodesCount := anonymous } = g c
  | row _ _ => True
  | append _ => True
  | catalog f => ∀ c, g (f c) = g c
  | catalogIfAny _ _ _ f => ∀ c, g (f c) = g c

theorem Write.Keeps.apply {α : Type} {g : QuadCatalog → α} {w : Write} (h : w.Keeps g) :
    g (w.apply db).catalog = g db.catalog := by
  cases w with
  | node nodeId =>
    obtain ⟨identifiable, anonymous, heq⟩ := @Write.catalog_addNode db nodeId
    rw [Write.apply, heq]
    exact h _ _ _
  | row j record => rfl
  | append record => rfl
  | catalog f => exact h _
  | catalogIfAny j first second f =>
    rw [Write.apply]
    split_ifs
    · exact h _
    · rfl

theorem keeps_applyWrites {α : Type} {g : QuadCatalog → α} (h : ∀ w ∈ ws, w.Keeps g) :
    g (applyWrites ws db).catalog = g db.catalog := by
  induction ws generalizing db with
  | nil => rfl
  | cons w ws ih =>
    exact (ih fun w' hw' => h w' (List.mem_cons_of_mem _ hw')).trans (h w List.mem_cons_self).apply

theorem exists_length_lt (hnodes : ∀ row ∈ rowsOf ws, row.1 ≠ .nodes) (hne : rowsOf ws ≠ [])
    (db : Database) : ∃ i, (db.index i).length < ((applyWrites ws db).index i).length := by
  obtain ⟨row, hrow⟩ := List.exists_mem_of_ne_nil _ hne
  have hmem : row.2 ∈ recordsFor row.1 (rowsOf ws) := mem_recordsFor.mpr hrow
  refine ⟨row.1, ?_⟩
  rw [(index_applyWrites ws db (hnodes row hrow)).length_eq, List.length_append]
  exact Nat.lt_add_of_pos_left (List.length_pos_of_mem hmem)

theorem runWrites_eq (hnodes : ∀ row ∈ rowsOf ws, row.1 ≠ .nodes) :
    (Fresh (rowsOf ws) db ∧ runWrites ws db = .ok () (applyWrites ws db)) ∨
    (¬ Fresh (rowsOf ws) db ∧ ∃ ws₁ i record ws₂, ws = ws₁ ++ .row i record :: ws₂ ∧
      Fresh (rowsOf ws₁) db ∧ record ∈ (applyWrites ws₁ db).index i ∧ runWrites ws db =
        .error "Inserting duplicated record into BPlusTree." (applyWrites ws₁ db)) := by
  induction ws generalizing db with
  | nil => exact .inl ⟨fresh_nil, rfl⟩
  | cons w ws ih =>
    have hrest : ∀ row ∈ rowsOf ws, row.1 ≠ .nodes := by
      intro row hrow
      apply hnodes
      rw [← List.singleton_append, rowsOf_append]
      exact List.mem_append_right _ hrow
    have hrun : runWrites (w :: ws) db =
        match w.run db with
        | .ok _ db => runWrites ws db
        | .error e db => .error e db := by
      simp only [runWrites, bind, EStateM.bind]
      cases w.run db <;> rfl
    rw [Write.run_eq] at hrun
    by_cases hfails : ∃ row ∈ w.target, row.2 ∈ db.index row.1
    · rw [if_pos hfails] at hrun
      obtain ⟨⟨i, record⟩, htarget, hrecord⟩ := hfails
      cases w with
      | row j record' =>
        cases htarget
        refine .inr ⟨?_, [], i, record, ws, rfl, fresh_nil, hrecord, hrun⟩
        exact fun hfresh => hfresh.2 (i, record) List.mem_cons_self hrecord
      | _ => cases htarget
    · rw [if_neg hfails] at hrun
      have hw : Fresh (rowsOf [w]) db := by
        cases htarget : w.target with
        | none => simp [Fresh, rowsOf, htarget]
        | some row =>
          simp only [Fresh, rowsOf, List.filterMap_cons, List.filterMap_nil, htarget]
          refine ⟨List.nodup_singleton row, ?_⟩
          intro row' hrow'
          rw [List.mem_singleton.mp hrow']
          exact fun hmem => hfails ⟨row, htarget, hmem⟩
      have hcons : ∀ ws : List Write, (∀ row ∈ rowsOf ws, row.1 ≠ .nodes) →
          (Fresh (rowsOf (w :: ws)) db ↔ Fresh (rowsOf ws) (w.apply db)) := by
        intro ws hnodes
        rw [← List.singleton_append, rowsOf_append, fresh_append hnodes]
        exact and_iff_right hw
      rcases @ih (w.apply db) hrest with
        ⟨hfresh, hok⟩ | ⟨hfresh, ws₁, i, record, ws₂, hws, hbefore, hmem, herror⟩
      · exact .inl ⟨(hcons ws hrest).mpr hfresh, hrun.trans hok⟩
      · have hfirst : ∀ row ∈ rowsOf ws₁, row.1 ≠ .nodes := by
          intro row hrow
          apply hrest
          rw [hws, rowsOf_append]
          exact List.mem_append_left _ hrow
        refine .inr ⟨fun h => hfresh ((hcons ws hrest).mp h), w :: ws₁, i, record, ws₂, ?_,
          (hcons ws₁ hfirst).mpr hbefore, hmem, hrun.trans herror⟩
        rw [hws, List.cons_append]

end

end MillenniumDB
