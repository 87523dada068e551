import MillenniumDB.ImportIndexes
import MillenniumDB.ImportRecords
import MillenniumDB.InsertRuns

/-!
# Numbers of edges and rows of the edge table

The id of an edge is a number that `connections_count` gave, and `EdgeTableLookup` reads the row
with that number.  Import numbers the edges as it writes their rows.  `exec_inserts` adds one to
`connections_count` before it inserts an edge and once more after it.
-/

namespace MillenniumDB

open Import (Imported OnDiskImport State Lexeme readTokens startImport)

/-- Edges are stored in the rows that their ids name, in all indexes alike, and the next edge gets
an id that is free and a row that has its number. -/
structure EdgesInTable (db : Database) : Prop where
  row : ∀ source target type edgeId, [source, target, type, edgeId] ∈ db.index .fromToTypeEdge →
    let e := ObjectId.valueMask &&& edgeId
    edgeId = e ||| ObjectId.maskEdge ∧ 0 < e ∧ e ≤ db.edgeTable.rows.length ∧
      db.edgeTable.rows[e - 1]? = some [source, target, type]
  edge : ∀ pos record, db.edgeTable.rows[pos]? = some record →
    record ++ [(pos + 1) ||| ObjectId.maskEdge] ∈ db.index .fromToTypeEdge
  toTypeFromEdge : ∀ source target type edgeId,
    [target, type, source, edgeId] ∈ db.index .toTypeFromEdge ↔
      [source, target, type, edgeId] ∈ db.index .fromToTypeEdge
  typeFromToEdge : ∀ source target type edgeId,
    [type, source, target, edgeId] ∈ db.index .typeFromToEdge ↔
      [source, target, type, edgeId] ∈ db.index .fromToTypeEdge
  typeToFromEdge : ∀ source target type edgeId,
    [type, target, source, edgeId] ∈ db.index .typeToFromEdge ↔
      [source, target, type, edgeId] ∈ db.index .fromToTypeEdge
  connectionsCount : db.catalog.connectionsCount = (db.index .fromToTypeEdge).length
  rows : db.catalog.connectionsCount = db.edgeTable.rows.length
  fresh : ∀ source target type, [source, target, type,
    (db.catalog.connectionsCount + 1) ||| ObjectId.maskEdge] ∉ db.index .fromToTypeEdge
  next : ∀ record, (db.edgeTable.appendRecord record).rows[
    (ObjectId.valueMask &&& ((db.catalog.connectionsCount + 1) ||| ObjectId.maskEdge)) - 1]? =
      some record
  lookup : ∀ source target type edgeId,
    [source, target, type, edgeId] ∈ db.index .fromToTypeEdge →
      ∀ (lookup : EdgeTableLookup) (binding : Binding), lookup.edgeAssignation binding = edgeId →
        lookup.next db.edgeTable binding = .ok (do
          let binding ← checkId binding lookup.source source
          let binding ← checkId binding lookup.target target
          checkId binding lookup.type type)

namespace Import

def Imported.database (imported : Imported) : Database where
  index i := (imported.tree i).leaf.flatMap LeafPage.records
  edgeTable := imported.edgeTable
  catalog := imported.catalog

section

variable {s : OnDiskImport} {imported : Imported}

theorem Writes.index_perm (h : Writes s imported) (i : Index) :
    (imported.database.index i).Perm (recordsOf s.collected i) := by
  have hrun : imported.database.index i = run s.collected i := (h.tree i).concat
  rw [hrun]
  exact DiskVector.perm_sort _

theorem Writes.mem_fromToTypeEdge (h : Writes s imported) {source target type edgeId : Nat} :
    [source, target, type, edgeId] ∈ imported.database.index .fromToTypeEdge ↔
      (source, target, type, edgeId) ∈ s.collected.edges := by
  rw [(h.index_perm .fromToTypeEdge).mem_iff]
  simp [recordsOf, tuple4]

theorem Writes.edgesInTable (h : Writes s imported) (hnumbered : Numbered s)
    (hfew : s.edgeCount + 1 < 2 ^ 56) : EdgesInTable imported.database := by
  have hrows : imported.database.edgeTable.rows = s.collected.edges.map endsOf := h.edgeTable
  have hcount : imported.database.catalog.connectionsCount = s.collected.edges.length :=
    h.connectionsCount
  have hlength : s.collected.edges.length + 1 < 2 ^ 56 := by rwa [← hnumbered.edgeCount]
  have hstored : ∀ source target type edgeId, (source, target, type, edgeId) ∈ s.collected.edges →
      ∃ e, e < s.collected.edges.length ∧ edgeId = (e + 1) ||| ObjectId.maskEdge ∧
        imported.database.edgeTable.rows[e]? = some [source, target, type] := by
    intro source target type edgeId hedge
    obtain ⟨e, he⟩ := List.mem_iff_getElem?.mp hedge
    have hlt := (List.getElem?_eq_some_iff.mp he).1
    refine ⟨e, hlt, hnumbered.edges e _ he, ?_⟩
    rw [hrows, List.getElem?_map, he]
    rfl
  constructor
  · intro source target type edgeId hedge
    obtain ⟨e, hlt, rfl, hrow⟩ := hstored _ _ _ _ (h.mem_fromToTypeEdge.mp hedge)
    have he := valueMask_edge (k := e + 1) (by omega)
    simp only [he]
    refine ⟨trivial, by omega, ?_, hrow⟩
    rw [hrows, List.length_map]
    omega
  · intro pos record hrecord
    rw [hrows, List.getElem?_map, Option.map_eq_some_iff] at hrecord
    obtain ⟨⟨source, target, type, edgeId⟩, hedge, rfl⟩ := hrecord
    have hid : edgeId = (pos + 1) ||| ObjectId.maskEdge := hnumbered.edges pos _ hedge
    rw [← hid]
    exact h.mem_fromToTypeEdge.mpr (List.mem_of_getElem? hedge)
  · intro source target type edgeId
    rw [h.mem_fromToTypeEdge, (h.index_perm .toTypeFromEdge).mem_iff]
    simp [recordsOf]
  · intro source target type edgeId
    rw [h.mem_fromToTypeEdge, (h.index_perm .typeFromToEdge).mem_iff]
    simp [recordsOf]
  · intro source target type edgeId
    rw [h.mem_fromToTypeEdge, (h.index_perm .typeToFromEdge).mem_iff]
    simp [recordsOf]
  · rw [hcount, (h.index_perm .fromToTypeEdge).length_eq]
    exact (List.length_map _).symm
  · rw [hcount, hrows, List.length_map]
  · intro source target type hedge
    obtain ⟨e, hlt, hid, -⟩ := hstored _ _ _ _ (h.mem_fromToTypeEdge.mp hedge)
    have he := edge_inj (by omega) (by omega) hid
    omega
  · intro record
    rw [hcount, valueMask_edge hlength, EdgeTable.rows_appendRecord, hrows]
    rw [List.getElem?_append_right (by simp)]
    simp
  · intro source target type edgeId hedge lookup binding hbinding
    obtain ⟨e, hlt, rfl, hrow⟩ := hstored _ _ _ _ (h.mem_fromToTypeEdge.mp hedge)
    exact EdgeTableLookup.next_free (Nat.succ_pos e) (by omega) hrow binding hbinding

end
end Import

structure EdgeState where
  fromToTypeEdge : List Tuple
  toTypeFromEdge : List Tuple
  typeFromToEdge : List Tuple
  typeToFromEdge : List Tuple
  edgeTable : EdgeTable
  connectionsCount : Nat

def edgeState (db : Database) : EdgeState :=
  ⟨db.index .fromToTypeEdge, db.index .toTypeFromEdge, db.index .typeFromToEdge,
    db.index .typeToFromEdge, db.edgeTable, db.catalog.connectionsCount⟩

def InsertsNoEdge (strId : Bytes → UInt64) (item : Item) (_ : Database) : Prop :=
  ∀ source target type, item.fact strId ≠ .ok (.edge source target type)

section

variable {strId : Bytes → UInt64} {db db' : Database} {fact : Fact} {ws : List Write}

theorem EdgesInTable.congr (h : EdgesInTable db) (heq : edgeState db' = edgeState db) :
    EdgesInTable db' := by
  simp only [edgeState, EdgeState.mk.injEq] at heq
  obtain ⟨hfromTo, htoType, htypeFrom, htypeTo, htable, hcount⟩ := heq
  constructor <;> simp only [hfromTo, htoType, htypeFrom, htypeTo, htable, hcount]
  · exact h.row
  · exact h.edge
  · exact h.toTypeFromEdge
  · exact h.typeFromToEdge
  · exact h.typeToFromEdge
  · exact h.connectionsCount
  · exact h.rows
  · exact h.fresh
  · exact h.next
  · exact h.lookup

theorem edgeState_addNode (nodeId : Nat) (db : Database) :
    edgeState (db.addNode nodeId) = edgeState db := by
  obtain ⟨identifiable, anonymous, hcatalog⟩ := @Write.catalog_addNode db nodeId
  simp [edgeState, Write.index_addNode, Write.edgeTable_addNode, hcatalog]

theorem edgeState_applyWrites (h : ∀ w ∈ ws, ∀ db, edgeState (w.apply db) = edgeState db)
    (db : Database) : edgeState (applyWrites ws db) = edgeState db := by
  induction ws generalizing db with
  | nil => rfl
  | cons w ws ih =>
    obtain ⟨hw, hws⟩ := List.forall_mem_cons.mp h
    exact (ih hws (w.apply db)).trans (hw db)

theorem edgeState_writes (connectionsCount : Nat)
    (hedge : ∀ source target type, fact ≠ .edge source target type) :
    ∀ w ∈ fact.writes connectionsCount, ∀ db, edgeState (w.apply db) = edgeState db := by
  cases fact with
  | label labelId nodeId =>
    simp only [Fact.writes, labelWrites, List.forall_mem_cons]
    exact ⟨fun db => edgeState_addNode nodeId db, fun _ => rfl, fun _ => rfl, fun _ => rfl,
      fun _ => rfl, fun _ => rfl, fun _ h => absurd h List.not_mem_nil⟩
  | property objId keyId valId =>
    simp only [Fact.writes, propertyWrites, List.forall_mem_cons]
    refine ⟨fun db => edgeState_addNode objId db, fun _ => rfl, fun _ => rfl, fun _ => rfl,
      fun _ => rfl, fun db => ?_, fun _ => rfl, fun _ h => absurd h List.not_mem_nil⟩
    rw [Write.apply]
    split_ifs <;> rfl
  | edge source target type => exact absurd rfl (hedge source target type)

theorem edgesInTable_insert (item : Item) (db : Database) (h : EdgesInTable db)
    (hitem : InsertsNoEdge strId item db) : EdgesInTable (stateAfter (item.insert strId) db) := by
  rcases @Item.stateAfter_insert strId item db with
    ⟨e, -, hstate⟩ | ⟨fact, ws₁, ws₂, hfact, hws, -, hstate, -⟩
  · rwa [hstate]
  · rw [hstate]
    apply h.congr
    apply edgeState_applyWrites
    intro w hw
    apply @edgeState_writes fact db.catalog.connectionsCount
    · intro source target type hedge
      exact hitem source target type (hfact.trans (congrArg Except.ok hedge))
    · rw [hws]
      exact List.mem_append_left _ hw

end

/-- Edges stay in the rows of their ids while no query inserts one. -/
theorem edgesInTable_of_run {hash : Bytes → UInt64} (atof : Bytes → Nat)
    (strId : Bytes → UInt64) (lexemes : List Lexeme)
    (id1 id2 typeId edgeId keyId : Nat) (direction : Bool) (bufferSizeInGB : Nat)
    {final : State × OnDiskImport} {imported : Imported}
    (hread : readTokens atof (.lineBegin, .start hash id1 id2 typeId edgeId keyId direction) lexemes =
      .ok final)
    (himport : startImport bufferSizeInGB final.2 = .ok imported)
    (hfew : final.2.edgeCount + 1 < 2 ^ 56) (queries : List OpInsert)
    (hqueries : Meets strId (InsertsNoEdge strId) imported.database queries) :
    EdgesInTable (afterQueries strId imported.database queries) := by
  have hnumbered := Import.numbered_readTokens hread (Import.numbered_start ..)
  exact keeps_afterQueries edgesInTable_insert queries
    ((Import.startImport_ok himport).edgesInTable hnumbered hfew) hqueries

def edgeLine (first second type : UInt8) : List Lexeme :=
  [⟨.identifier, [first]⟩, ⟨.rArrow, [45, 62]⟩, ⟨.identifier, [second]⟩, ⟨.colon, [58]⟩,
    ⟨.identifier, [type]⟩, ⟨.endline, [10]⟩]

def edgeCounts (s : OnDiskImport) (imported : Imported) : Nat × Nat :=
  (s.edgeCount, imported.catalog.connectionsCount)

theorem insertsNoEdge_of_nil {strId : Bytes → UInt64} {db : Database} {queries : List OpInsert}
    (h : ∀ opInsert ∈ queries, opInsert.edges = []) :
    Meets strId (InsertsNoEdge strId) db queries := by
  intro done opInsert rest hqueries item db' hgets source target type hfact
  obtain ⟨before, behind, hitems, -⟩ := hgets
  have hmem : item ∈ opInsert.items := by
    rw [hitems]
    exact List.mem_append_right _ List.mem_cons_self
  have hnil := h opInsert (by rw [hqueries]; exact List.mem_append_right _ List.mem_cons_self)
  rw [OpInsert.items, hnil, List.map_nil, List.append_nil, List.mem_append] at hmem
  rcases hmem with hmem | hmem
  · obtain ⟨op, -, rfl⟩ := List.mem_map.mp hmem
    simp only [Item.fact, bind, Except.bind] at hfact
    split at hfact
    · cases hfact
    · split at hfact <;> cases hfact
  · obtain ⟨op, -, rfl⟩ := List.mem_map.mp hmem
    simp only [Item.fact, bind, Except.bind] at hfact
    split at hfact
    · cases hfact
    · split at hfact
      · cases hfact
      · split at hfact <;> cases hfact

theorem edgesInTable_oneEdge : ∃ final imported,
    readTokens (fun _ => 0) (.lineBegin, .start (fun _ => 0) 0 0 0 0 0 true) (edgeLine 65 66 116) = .ok final ∧
      startImport 1 final.2 = .ok imported ∧
        EdgesInTable (afterQueries (fun _ => 0) imported.database [oneLabel]) := by
  obtain ⟨final, imported, hread, himport, hcounts⟩ := Import.exists_imported
    (show Import.importing edgeCounts (edgeLine 65 66 116) = some (.ok (1, 1)) by decide +kernel)
  have hcount : final.2.edgeCount = 1 := congrArg Prod.fst hcounts
  refine ⟨final, imported, hread, himport, ?_⟩
  apply edgesInTable_of_run _ _ _ 0 0 0 0 0 true 1 hread himport (by omega)
  exact insertsNoEdge_of_nil (by simp [oneLabel])

def oneEdge : OpInsert where
  labels := []
  properties := []
  edges := [⟨.namedNode [97], .namedNode [98], .namedNode [116]⟩]

/-- An edge that a query inserts counts twice. -/
theorem not_edgesInTable : ¬ ∀ (lexemes : List Lexeme) (final : State × OnDiskImport)
    (imported : Imported) (queries : List OpInsert),
    readTokens (fun _ => 0) (.lineBegin, .start (fun _ => 0) 0 0 0 0 0 true) lexemes = .ok final →
      startImport 1 final.2 = .ok imported →
        EdgesInTable (afterQueries (fun _ => 0) imported.database queries) := by
  intro h
  obtain ⟨final, imported, hread, himport, hcounts⟩ := Import.exists_imported
    (show Import.importing (fun s imported =>
      ((afterQueries (fun _ => 0) imported.database [oneEdge]).catalog.connectionsCount,
        (afterQueries (fun _ => 0) imported.database [oneEdge]).edgeTable.rows.length))
      [] = some (.ok (2, 1)) by decide +kernel)
  have hrows := (h [] final imported [oneEdge] hread himport).rows
  obtain ⟨hcount, hlength⟩ := Prod.mk.inj hcounts
  rw [hcount, hlength] at hrows
  cases hrows

end MillenniumDB
