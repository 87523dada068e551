import MillenniumDB.DiskMerge
import MillenniumDB.QuadImport
import MillenniumDB.QuadInserts

/-!
# The indexes of an import

What `start_import` does once the file is read: nodes that only edges name join the declared ones,
the edge table is written, and every collection becomes its B+ trees and their statistics.
-/

namespace MillenniumDB

namespace DiskVector

/-- The tuples of a vector are those pushed, with the columns in its order. -/
structure Collected (n : Nat) (original : List Nat) (tuples : List Tuple) (v : DiskVector) :
    Prop where
  file : v.file.Perm (tuples.map (columns original v.currentPermutation))
  total : v.totalTuples = v.file.length
  buffer : ∃ blocks, v.bufferSize = blocks * mdbPageSize
  current : v.currentPermutation.length = n

section

variable {n : Nat} {original new : List Nat} {tuples : List Tuple} {v v' : DiskVector}

theorem reorderLoop_zero (reorder : Tuple → Tuple) (fuel : Nat) (rest : List Tuple) :
    reorderLoop 0 reorder fuel rest = .error .diverges := by
  induction fuel generalizing rest with
  | zero => rfl
  | succ fuel ih => simp [reorderLoop, ih, Except.map]

theorem mergeSort_error {σ : Type} (process : σ → Tuple → σ) (stat : σ)
    (hfile : v.file.length ≠ 0)
    (hnot : ¬ divisionRoundUp v.file.length v.bufferSize * mdbPageSize +
      BPTLeafWriter.maxRecords n ≤ v.bufferSize) :
    mergeSort n process stat v = .error .assertion := by
  rw [mergeSort, if_neg hfile]
  exact if_neg hnot

theorem Collected.holds {σ : Type} {process : σ → Tuple → σ} {stat : σ} {w : TreeWriter σ}
    (hv : Collected n original tuples v)
    (h : v.createBpt n process stat new = .ok (w, v')) : Holds n original tuples v := by
  refine ⟨hv.file, hv.total, hv.buffer, ?_, hv.current⟩
  cases hreorder : reorderTuple n v.currentPermutation new with
  | error e => simp [DiskVector.createBpt, reorderCols, hreorder, bind, Except.bind] at h
  | ok reorder =>
    rcases Nat.eq_zero_or_pos v.bufferSize with hzero | hpos
    · simp [DiskVector.createBpt, reorderCols, hreorder, hzero, reorderLoop_zero, bind,
        Except.bind] at h
    · refine ⟨hpos, ?_⟩
      obtain ⟨file, heq, hperm, -⟩ := reorderLoop_ok reorder hpos (v.file.length + 1) v.file
        (Nat.lt_succ_self _)
      have hlength : file.length = tuples.length := by
        rw [hperm.length_eq, List.length_map, hv.file.length_eq, List.length_map]
      by_cases hempty : tuples.length = 0
      · exact .inl hempty
      · refine .inr ?_
        by_contra hnot
        simp only [DiskVector.createBpt, reorderCols, hreorder, heq, bind, Except.bind] at h
        rw [← hlength] at hnot hempty
        let v₁ : DiskVector := { v with file := file, currentPermutation := new }
        rw [mergeSort_error (v := v₁) process stat hempty hnot] at h
        cases h

structure Loaded (n : Nat) (records : List Tuple) (tree : Bpt) : Prop extends
    Paged n records tree.leaf where
  load : ∃ (σ : Type) (process : σ → Tuple → σ) (stat : σ) (w : TreeWriter σ),
    bulkLoad n process stat records = .ok w ∧ w.tree = tree

theorem Collected.createBpt {σ : Type} {process : σ → Tuple → σ} {stat : σ} {w : TreeWriter σ}
    (hv : Collected n original tuples v) (hn : 0 < n) (hle : n ≤ 4)
    (hnew : new.Perm v.currentPermutation) (h : v.createBpt n process stat new = .ok (w, v')) :
    Collected n original tuples v' ∧ v'.currentPermutation = new ∧
      Loaded n (sort (tuples.map (columns original new))) w.tree ∧
        w.stat = (sort (tuples.map (columns original new))).foldl process stat := by
  have hholds := hv.holds h
  cases hreorder : reorderTuple n v.currentPermutation new with
  | error e => simp [DiskVector.createBpt, reorderCols, hreorder, bind, Except.bind] at h
  | ok reorder =>
    obtain ⟨v'', hv'', hcurrent, heq⟩ :=
      createBpt_eq process hn hle hholds stat hreorder hnew
    obtain ⟨w', hw', hpaged, hstat⟩ := bulkLoad_ok process (BPTLeafWriter.maxRecords_pos hn hle)
      stat (sort (tuples.map (columns original new)))
    rw [h, hw'] at heq
    cases heq
    exact ⟨⟨hv''.file, hv''.total, hv''.buffer, hv''.current⟩, hcurrent,
      ⟨hpaged, σ, process, stat, w, hw', rfl⟩, hstat⟩

/-- `push_back` of many tuples. -/
def pushAll (tuples : List Tuple) (v : DiskVector) : DiskVector :=
  tuples.foldl (fun v record => v.pushBack record) v

theorem contents_pushAll (tuples : List Tuple) (v : DiskVector) :
    (v.pushAll tuples).file ++ (v.pushAll tuples).buffer = v.file ++ v.buffer ++ tuples := by
  induction tuples generalizing v with
  | nil => exact (List.append_nil _).symm
  | cons record tuples ih =>
    refine (ih (v.pushBack record)).trans ?_
    rw [file_pushBack, List.append_assoc, List.singleton_append]

theorem collected_startIndexing (maxBufferSize : Nat) (horiginal : original.Nodup)
    (hlen : original.length = n) (hfile : v.file = tuples) (htotal : v.totalTuples = v.file.length)
    (htuples : ∀ t ∈ tuples, t.length = n) :
    Collected n original tuples (v.startIndexing n maxBufferSize original) where
  file := by
    have hself : tuples.map (columns original original) = tuples := by
      conv_rhs => rw [← List.map_id tuples]
      apply List.map_congr_left
      intro t ht
      exact columns_self horiginal ((htuples t ht).trans hlen.symm)
    show v.file.Perm (tuples.map (columns original original))
    rw [hfile, hself]
  total := htotal
  buffer := ⟨_, rfl⟩
  current := hlen

end
end DiskVector

namespace Import

structure NodesLoop where
  nodesSet : List Nat
  declaredNodes : DiskVector
  tableWriter : EdgeTable

/-- `insert` of a set. -/
def insertNode (nodesSet : List Nat) (nodeId : Nat) : List Nat :=
  if nodeId ∈ nodesSet then nodesSet else nodeId :: nodesSet

namespace NodesLoop

def addNode (s : NodesLoop) (nodeId : Nat) : NodesLoop :=
  if nodeId ∈ s.nodesSet then s
  else
    { s with
      nodesSet := insertNode s.nodesSet nodeId
      declaredNodes := s.declaredNodes.pushBack [nodeId] }

def addEdge (s : NodesLoop) (tuple : Tuple) : NodesLoop :=
  { s with
    tableWriter := s.tableWriter.appendRecord [column 0 tuple, column 1 tuple, column 2 tuple] }
    |>.addNode (column 0 tuple) |>.addNode (column 1 tuple) |>.addNode (column 2 tuple)

end NodesLoop

structure Imported where
  tree : Index → Bpt
  edgeTable : EdgeTable
  catalog : QuadCatalog

def createTwoBpts {σ τ : Type} (n : Nat) (process : σ → Tuple → σ) (stat : σ)
    (newPermutation : List Nat) (process' : τ → Tuple → τ) (stat' : τ)
    (newPermutation' : List Nat) (v : DiskVector) :
    Except Failure (TreeWriter σ × TreeWriter τ) := do
  let (tree, v) ← v.createBpt n process stat newPermutation
  let (tree', _) ← v.createBpt n process' stat' newPermutation'
  .ok (tree, tree')

def tuple2 (r : Nat × Nat) : Tuple := [r.1, r.2]
def tuple3 (r : Nat × Nat × Nat) : Tuple := [r.1, r.2.1, r.2.2]
def tuple4 (r : Nat × Nat × Nat × Nat) : Tuple := [r.1, r.2.1, r.2.2.1, r.2.2.2]

def vectorOf (tuples : List Tuple) : DiskVector :=
  (DiskVector.init.pushAll tuples).finishAppends

/-- `type2total_count` as a map: its keys are the types of the edges. -/
def type2totalCount (s : OnDiskImport) : Counts Nat :=
  s.collected.edges.foldl (fun m edge => m.insert edge.2.2.1 (s.type2totalCount edge.2.2.1)) ∅

def nodesLoop (c : Collections) : NodesLoop :=
  let declaredNodes := vectorOf (c.declaredNodes.map ([·]))
  let nodesSet := (declaredNodes.file.map (column 0)).foldl insertNode []
  (vectorOf (c.edges.map tuple4)).file.foldl NodesLoop.addEdge ⟨nodesSet, declaredNodes, .empty⟩

/-- `start_import` after the file is read.  The strings go to files of their own. -/
def startImport (bufferSizeInGB : Nat) (s : OnDiskImport) : Except Failure Imported := do
  let c := s.collected
  let loop := nodesLoop c
  let declaredNodes := loop.declaredNodes.finishAppends
  let bufferSize := 1024 * 1024 * 1024 * bufferSizeInGB
  let (nodes, _) ← (declaredNodes.startIndexing 1 bufferSize [0]).createBpt 1
    NoStat.processTuple () [0]
  let labels := (vectorOf (c.labels.map tuple2)).startIndexing 2 bufferSize [0, 1]
  let (nodeLabel, labelNode) ← createTwoBpts 2 NoStat.processTuple () [0, 1]
    LabelStat.processTuple LabelStat.start [1, 0] labels
  let properties := (vectorOf (c.properties.map tuple3)).startIndexing 3 bufferSize [0, 1, 2]
  let (objectKeyValue, keyValueObject) ← createTwoBpts 3 NoStat.processTuple () [0, 1, 2]
    PropStat.processTuple PropStat.start [1, 2, 0] properties
  let edges := (vectorOf (c.edges.map tuple4)).startIndexing 4 bufferSize [0, 1, 2, 3]
  let (fromToTypeEdge, edges') ← edges.createBpt 4 DistinctStat.processTuple DistinctStat.start
    [0, 1, 2, 3]
  let (toTypeFromEdge, edges') ← edges'.createBpt 4 DistinctStat.processTuple DistinctStat.start
    [1, 2, 0, 3]
  let (typeFromToEdge, edges') ← edges'.createBpt 4 NoStat.processTuple () [2, 0, 1, 3]
  let (typeToFromEdge, _) ← edges'.createBpt 4 NoStat.processTuple () [2, 1, 0, 3]
  let equalFromToType :=
    (vectorOf (c.equalFromToType.map tuple2)).startIndexing 2 bufferSize [0, 1]
  let (equalFromToTypeTree, _) ← equalFromToType.createBpt 2 DictCountStat.processTuple
    DictCountStat.start [0, 1]
  let equalFromTo := (vectorOf (c.equalFromTo.map tuple3)).startIndexing 3 bufferSize [0, 1, 2]
  let (equalFromToTree, equalFromToInverted) ← createTwoBpts 3 NoStat.processTuple () [0, 1, 2]
    DictCountStat.processTuple DictCountStat.start [1, 0, 2] equalFromTo
  let equalFromType :=
    (vectorOf (c.equalFromType.map tuple3)).startIndexing 3 bufferSize [0, 1, 2]
  let (equalFromTypeTree, equalFromTypeInverted) ← createTwoBpts 3 DictCountStat.processTuple
    DictCountStat.start [0, 1, 2] NoStat.processTuple () [1, 0, 2] equalFromType
  let equalToType := (vectorOf (c.equalToType.map tuple3)).startIndexing 3 bufferSize [0, 1, 2]
  let (equalToTypeTree, equalToTypeInverted) ← createTwoBpts 3 DictCountStat.processTuple
    DictCountStat.start [0, 1, 2] NoStat.processTuple () [1, 0, 2] equalToType
  .ok {
    tree := fun
      | .nodes => nodes.tree
      | .labelNode => labelNode.tree
      | .nodeLabel => nodeLabel.tree
      | .objectKeyValue => objectKeyValue.tree
      | .keyValueObject => keyValueObject.tree
      | .fromToTypeEdge => fromToTypeEdge.tree
      | .toTypeFromEdge => toTypeFromEdge.tree
      | .typeFromToEdge => typeFromToEdge.tree
      | .typeToFromEdge => typeToFromEdge.tree
      | .equalFromTo => equalFromToTree.tree
      | .equalFromType => equalFromTypeTree.tree
      | .equalToType => equalToTypeTree.tree
      | .equalFromToType => equalFromToTypeTree.tree
      | .equalFromToInverted => equalFromToInverted.tree
      | .equalFromTypeInverted => equalFromTypeInverted.tree
      | .equalToTypeInverted => equalToTypeInverted.tree
    edgeTable := loop.tableWriter
    catalog := {
      identifiableNodesCount := loop.nodesSet.length
      anonymousNodesCount := s.ids.anonymousNodesCount
      connectionsCount := edges.totalTuples
      labelCount := labels.totalTuples
      propertiesCount := properties.totalTuples
      distinctLabels := (LabelStat.finish labelNode.stat).size
      distinctKeys := (PropStat.finish keyValueObject.stat).1.size
      distinctFrom := fromToTypeEdge.stat.distinct
      distinctTo := toTypeFromEdge.stat.distinct
      distinctType := (type2totalCount s).size
      equalFromToCount := equalFromTo.totalTuples
      equalFromTypeCount := equalFromType.totalTuples
      equalToTypeCount := equalToType.totalTuples
      equalFromToTypeCount := equalFromToType.totalTuples
      label2totalCount := LabelStat.finish labelNode.stat
      key2totalCount := (PropStat.finish keyValueObject.stat).1
      key2distinct := (PropStat.finish keyValueObject.stat).2
      type2totalCount := type2totalCount s
      type2equalFromToTypeCount := DictCountStat.finish equalFromToTypeTree.stat
      type2equalFromToCount := DictCountStat.finish equalFromToInverted.stat
      type2equalFromTypeCount := DictCountStat.finish equalFromTypeTree.stat
      type2equalToTypeCount := DictCountStat.finish equalToTypeTree.stat } }

def undeclared (seen : List Nat) : List Nat → List Nat
  | [] => []
  | nodeId :: nodeIds =>
    if nodeId ∈ seen then undeclared seen nodeIds
    else nodeId :: undeclared (nodeId :: seen) nodeIds

def endsOf (edge : Nat × Nat × Nat × Nat) : List Nat := [edge.1, edge.2.1, edge.2.2.1]

theorem undeclared_congr {seen seen' : List Nat} (h : ∀ x, x ∈ seen ↔ x ∈ seen')
    (nodeIds : List Nat) : undeclared seen nodeIds = undeclared seen' nodeIds := by
  induction nodeIds generalizing seen seen' with
  | nil => rfl
  | cons nodeId nodeIds ih =>
    have hcons : ∀ x, x ∈ nodeId :: seen ↔ x ∈ nodeId :: seen' := by
      intro x
      rw [List.mem_cons, List.mem_cons, h]
    simp only [undeclared, h, ih h, ih hcons]

theorem undeclared_append {seen seen' nodeIds nodeIds' : List Nat}
    (h : ∀ x, x ∈ seen' ↔ x ∈ seen ∨ x ∈ nodeIds) :
    undeclared seen (nodeIds ++ nodeIds') = undeclared seen nodeIds ++ undeclared seen' nodeIds' := by
  induction nodeIds generalizing seen with
  | nil => exact undeclared_congr (fun x => by simp [h]) nodeIds'
  | cons nodeId nodeIds ih =>
    rw [List.cons_append, undeclared, undeclared]
    by_cases hnode : nodeId ∈ seen
    · rw [if_pos hnode, if_pos hnode]
      apply ih
      intro x
      rw [h, List.mem_cons]
      constructor
      · rintro (hx | rfl | hx)
        · exact .inl hx
        · exact .inl hnode
        · exact .inr hx
      · exact Or.imp_right .inr
    · rw [if_neg hnode, if_neg hnode, List.cons_append, ih]
      intro x
      rw [h, List.mem_cons, List.mem_cons, or_left_comm, or_assoc]

theorem mem_undeclared {seen nodeIds : List Nat} {x : Nat} :
    x ∈ undeclared seen nodeIds ↔ x ∈ nodeIds ∧ x ∉ seen := by
  induction nodeIds generalizing seen with
  | nil => simp [undeclared]
  | cons nodeId nodeIds ih =>
    rw [undeclared]
    by_cases hnode : nodeId ∈ seen
    · rw [if_pos hnode, ih, List.mem_cons]
      constructor
      · exact fun h => ⟨.inr h.1, h.2⟩
      · intro h
        refine ⟨h.1.resolve_left ?_, h.2⟩
        rintro rfl
        exact h.2 hnode
    · rw [if_neg hnode, List.mem_cons, ih, List.mem_cons, List.mem_cons]
      by_cases hx : x = nodeId
      · simp [hx, hnode]
      · simp [hx]

theorem nodup_undeclared (seen nodeIds : List Nat) : (undeclared seen nodeIds).Nodup := by
  induction nodeIds generalizing seen with
  | nil => exact List.nodup_nil
  | cons nodeId nodeIds ih =>
    rw [undeclared]
    split_ifs
    · exact ih seen
    · rw [List.nodup_cons]
      exact ⟨fun hmem => (mem_undeclared.mp hmem).2 List.mem_cons_self, ih _⟩

/-- All nodes of an import: those that are declared and those that only edges name. -/
def nodeIds (c : Collections) : List Nat :=
  c.declaredNodes ++ undeclared c.declaredNodes (c.edges.flatMap endsOf)

theorem nodup_nodeIds {c : Collections} : (nodeIds c).Nodup ↔ c.declaredNodes.Nodup := by
  rw [nodeIds, List.nodup_append]
  refine ⟨fun h => h.1, fun h => ⟨h, nodup_undeclared _ _, ?_⟩⟩
  rintro x hx _ hy rfl
  exact (mem_undeclared.mp hy).2 hx

theorem mem_foldl_insertNode {seen nodeIds : List Nat} {x : Nat} :
    x ∈ nodeIds.foldl insertNode seen ↔ x ∈ seen ∨ x ∈ nodeIds := by
  induction nodeIds generalizing seen with
  | nil => simp
  | cons nodeId nodeIds ih =>
    rw [List.foldl_cons, ih, insertNode, List.mem_cons]
    split_ifs with hnode
    · constructor
      · exact Or.imp_right .inr
      · rintro (h | rfl | h)
        · exact .inl h
        · exact .inl hnode
        · exact .inr h
    · rw [List.mem_cons, or_comm (a := x = nodeId), or_assoc]

namespace NodesLoop

def contents (s : NodesLoop) : List Tuple := s.declaredNodes.file ++ s.declaredNodes.buffer

theorem foldl_addNode (nodeIds : List Nat) (s : NodesLoop) :
    (nodeIds.foldl addNode s).contents = s.contents ++ (undeclared s.nodesSet nodeIds).map ([·]) ∧
      (nodeIds.foldl addNode s).tableWriter = s.tableWriter ∧
      ∀ x, x ∈ (nodeIds.foldl addNode s).nodesSet ↔ x ∈ s.nodesSet ∨ x ∈ nodeIds := by
  induction nodeIds generalizing s with
  | nil => simp [undeclared]
  | cons nodeId nodeIds ih =>
    obtain ⟨hcontents, htable, hset⟩ := ih (s.addNode nodeId)
    rw [List.foldl_cons, undeclared]
    by_cases hnode : nodeId ∈ s.nodesSet
    · have hsame : s.addNode nodeId = s := if_pos hnode
      rw [hsame] at hcontents htable hset ⊢
      rw [if_pos hnode]
      refine ⟨hcontents, htable, fun x => ?_⟩
      rw [hset, List.mem_cons]
      constructor
      · exact Or.imp_right .inr
      · rintro (h | rfl | h)
        · exact .inl h
        · exact .inl hnode
        · exact .inr h
    · have hnew : s.addNode nodeId = { s with
          nodesSet := nodeId :: s.nodesSet
          declaredNodes := s.declaredNodes.pushBack [nodeId] } := by
        rw [addNode, if_neg hnode, insertNode, if_neg hnode]
      rw [hnew] at hcontents htable hset ⊢
      rw [if_neg hnode]
      refine ⟨?_, htable, fun x => ?_⟩
      · rw [hcontents, contents, DiskVector.file_pushBack, List.map_cons, List.append_assoc,
          List.singleton_append]
        rfl
      · rw [hset, List.mem_cons, List.mem_cons, or_comm (a := x = nodeId), or_assoc]

/-- After the loop the nodes of the edges are declared and the table holds the edges. -/
theorem foldl_addEdge (edges : List (Nat × Nat × Nat × Nat)) (s : NodesLoop) :
    ((edges.map tuple4).foldl addEdge s).contents =
        s.contents ++ (undeclared s.nodesSet (edges.flatMap endsOf)).map ([·]) ∧
      ((edges.map tuple4).foldl addEdge s).tableWriter.rows =
        s.tableWriter.rows ++ edges.map endsOf := by
  induction edges generalizing s with
  | nil => simp [undeclared]
  | cons edge edges ih =>
    obtain ⟨hcontents, htable, hset⟩ := foldl_addNode (endsOf edge)
      { s with tableWriter := s.tableWriter.appendRecord (endsOf edge) }
    obtain ⟨hcontents', htable'⟩ := ih (s.addEdge (tuple4 edge))
    have hedge : s.addEdge (tuple4 edge) = (endsOf edge).foldl addNode
        { s with tableWriter := s.tableWriter.appendRecord (endsOf edge) } := rfl
    rw [hedge] at hcontents' htable'
    constructor
    · rw [List.map_cons, List.foldl_cons, hedge, hcontents', hcontents, List.flatMap_cons,
        undeclared_append hset, List.map_append, List.append_assoc]
      rfl
    · rw [List.map_cons, List.foldl_cons, hedge, htable', htable, EdgeTable.rows_appendRecord,
        List.map_cons, List.append_assoc, List.singleton_append]

end NodesLoop

def width : Index → Nat
  | .nodes => 1
  | .labelNode | .nodeLabel | .equalFromToType => 2
  | .fromToTypeEdge | .toTypeFromEdge | .typeFromToEdge | .typeToFromEdge => 4
  | _ => 3

def recordsOf (c : Collections) : Index → List Tuple
  | .nodes => (nodeIds c).map ([·])
  | .nodeLabel => c.labels.map tuple2
  | .labelNode => c.labels.map fun r => [r.2, r.1]
  | .objectKeyValue => c.properties.map tuple3
  | .keyValueObject => c.properties.map fun r => [r.2.1, r.2.2, r.1]
  | .fromToTypeEdge => c.edges.map tuple4
  | .toTypeFromEdge => c.edges.map fun r => [r.2.1, r.2.2.1, r.1, r.2.2.2]
  | .typeFromToEdge => c.edges.map fun r => [r.2.2.1, r.1, r.2.1, r.2.2.2]
  | .typeToFromEdge => c.edges.map fun r => [r.2.2.1, r.2.1, r.1, r.2.2.2]
  | .equalFromTo => c.equalFromTo.map tuple3
  | .equalFromType => c.equalFromType.map tuple3
  | .equalToType => c.equalToType.map tuple3
  | .equalFromToType => c.equalFromToType.map tuple2
  | .equalFromToInverted => c.equalFromTo.map fun r => [r.2.1, r.1, r.2.2]
  | .equalFromTypeInverted => c.equalFromType.map fun r => [r.2.1, r.1, r.2.2]
  | .equalToTypeInverted => c.equalToType.map fun r => [r.2.1, r.1, r.2.2]

def run (c : Collections) (i : Index) : List Tuple := DiskVector.sort (recordsOf c i)

/-- What is written is right: every tree holds its records in order, the table holds the edges,
and the catalog has the statistics of the records. -/
structure Writes (s : OnDiskImport) (imported : Imported) : Prop where
  tree : ∀ i, DiskVector.Loaded (width i) (run s.collected i) (imported.tree i)
  edgeTable : imported.edgeTable.rows = s.collected.edges.map endsOf
  connectionsCount : imported.catalog.connectionsCount = s.collected.edges.length
  label2totalCount : imported.catalog.label2totalCount = LabelStat.finish
    ((run s.collected .labelNode).foldl LabelStat.processTuple LabelStat.start)
  key2totalCount : imported.catalog.key2totalCount = (PropStat.finish
    ((run s.collected .keyValueObject).foldl PropStat.processTuple PropStat.start)).1
  key2distinct : imported.catalog.key2distinct = (PropStat.finish
    ((run s.collected .keyValueObject).foldl PropStat.processTuple PropStat.start)).2
  type2totalCount : imported.catalog.type2totalCount = type2totalCount s
  anonymousNodesCount : imported.catalog.anonymousNodesCount = s.ids.anonymousNodesCount

section

variable {σ τ : Type} {n : Nat} {process : σ → Tuple → σ} {stat : σ} {process' : τ → Tuple → τ}
  {stat' : τ} {original new new' : List Nat} {tuples : List Tuple} {v : DiskVector}

theorem bind_eq_ok {α β : Type} {x : Except Failure α} {f : α → Except Failure β} {b : β}
    (h : x >>= f = .ok b) : ∃ a, x = .ok a ∧ f a = .ok b := by
  cases x with
  | error e => cases h
  | ok a => exact ⟨a, rfl, h⟩

theorem createTwoBpts_ok {trees : TreeWriter σ × TreeWriter τ}
    (hv : DiskVector.Collected n original tuples v) (hn : 0 < n) (hle : n ≤ 4)
    (hnew : new.Perm v.currentPermutation) (hnew' : new'.Perm new)
    (h : createTwoBpts n process stat new process' stat' new' v = .ok trees) :
    (DiskVector.Loaded n (DiskVector.sort (tuples.map (DiskVector.columns original new)))
        trees.1.tree ∧
      trees.1.stat =
        (DiskVector.sort (tuples.map (DiskVector.columns original new))).foldl process stat) ∧
    DiskVector.Loaded n (DiskVector.sort (tuples.map (DiskVector.columns original new')))
        trees.2.tree ∧
      trees.2.stat =
        (DiskVector.sort (tuples.map (DiskVector.columns original new'))).foldl process' stat' := by
  obtain ⟨⟨tree, v₁⟩, htree, h⟩ := bind_eq_ok h
  obtain ⟨⟨tree', v₂⟩, htree', h⟩ := bind_eq_ok h
  cases h
  obtain ⟨hv₁, hcurrent, htree⟩ := hv.createBpt hn hle hnew htree
  obtain ⟨-, -, htree'⟩ := hv₁.createBpt hn hle (hcurrent ▸ hnew') htree'
  exact ⟨htree, htree'⟩

theorem file_vectorOf (tuples : List Tuple) : (vectorOf tuples).file = tuples :=
  (DiskVector.contents_pushAll tuples .init).trans (List.nil_append tuples)

theorem collected_vectorOf (maxBufferSize : Nat) (horiginal : original.Nodup)
    (hlen : original.length = n) (htuples : ∀ t ∈ tuples, t.length = n) :
    DiskVector.Collected n original tuples
      ((vectorOf tuples).startIndexing n maxBufferSize original) :=
  DiskVector.collected_startIndexing maxBufferSize horiginal hlen (file_vectorOf tuples) rfl htuples

end

theorem length_tuples {α : Type} {f : α → Tuple} {n : Nat} (hf : ∀ r, (f r).length = n)
    (records : List α) : ∀ t ∈ records.map f, t.length = n := by
  intro t ht
  obtain ⟨r, -, rfl⟩ := List.mem_map.mp ht
  exact hf r

theorem nodesLoop_ok (c : Collections) : (nodesLoop c).contents = (nodeIds c).map ([·]) ∧
    (nodesLoop c).tableWriter.rows = c.edges.map endsOf := by
  have hloop : nodesLoop c = (c.edges.map tuple4).foldl NodesLoop.addEdge
      ⟨(c.declaredNodes.map ([·]) |>.map (column 0)).foldl insertNode [],
        vectorOf (c.declaredNodes.map ([·])), .empty⟩ := by
    rw [nodesLoop, file_vectorOf, file_vectorOf]
  have hseen : ∀ x, x ∈ (c.declaredNodes.map ([·]) |>.map (column 0)).foldl insertNode [] ↔
      x ∈ c.declaredNodes := by
    intro x
    rw [mem_foldl_insertNode, List.map_map]
    have hid : column 0 ∘ (fun nodeId : Nat => [nodeId]) = id := rfl
    simp [hid]
  obtain ⟨hcontents, htable⟩ := NodesLoop.foldl_addEdge c.edges
    ⟨(c.declaredNodes.map ([·]) |>.map (column 0)).foldl insertNode [],
      vectorOf (c.declaredNodes.map ([·])), .empty⟩
  rw [hloop]
  refine ⟨?_, htable⟩
  rw [hcontents, undeclared_congr hseen, nodeIds, List.map_append]
  congr 1
  rw [NodesLoop.contents, file_vectorOf]
  exact List.append_nil _

theorem startImport_ok {bufferSizeInGB : Nat} {s : OnDiskImport} {imported : Imported}
    (h : startImport bufferSizeInGB s = .ok imported) : Writes s imported := by
  obtain ⟨⟨nodes, _⟩, hnodes, h⟩ := bind_eq_ok h
  obtain ⟨⟨nodeLabel, labelNode⟩, hlabels, h⟩ := bind_eq_ok h
  obtain ⟨⟨objectKeyValue, keyValueObject⟩, hproperties, h⟩ := bind_eq_ok h
  obtain ⟨⟨fromToTypeEdge, v₁⟩, hfromTo, h⟩ := bind_eq_ok h
  obtain ⟨⟨toTypeFromEdge, v₂⟩, htoType, h⟩ := bind_eq_ok h
  obtain ⟨⟨typeFromToEdge, v₃⟩, htypeFrom, h⟩ := bind_eq_ok h
  obtain ⟨⟨typeToFromEdge, _⟩, htypeTo, h⟩ := bind_eq_ok h
  obtain ⟨⟨equalFromToType, _⟩, hequalFromToType, h⟩ := bind_eq_ok h
  obtain ⟨⟨equalFromTo, equalFromToInverted⟩, hequalFromTo, h⟩ := bind_eq_ok h
  obtain ⟨⟨equalFromType, equalFromTypeInverted⟩, hequalFromType, h⟩ := bind_eq_ok h
  obtain ⟨⟨equalToType, equalToTypeInverted⟩, hequalToType, h⟩ := bind_eq_ok h
  cases h
  obtain ⟨hcontents, htable⟩ := nodesLoop_ok s.collected
  let bufferSize := 1024 * 1024 * 1024 * bufferSizeInGB
  have hv2 : ∀ rs : List (Nat × Nat), DiskVector.Collected 2 [0, 1] (rs.map tuple2)
      ((vectorOf (rs.map tuple2)).startIndexing 2 bufferSize [0, 1]) := fun rs =>
    collected_vectorOf bufferSize (by decide) rfl (length_tuples (f := tuple2) (fun _ => rfl) rs)
  have hv3 : ∀ rs : List (Nat × Nat × Nat), DiskVector.Collected 3 [0, 1, 2] (rs.map tuple3)
      ((vectorOf (rs.map tuple3)).startIndexing 3 bufferSize [0, 1, 2]) := fun rs =>
    collected_vectorOf bufferSize (by decide) rfl (length_tuples (f := tuple3) (fun _ => rfl) rs)
  have hv4 : DiskVector.Collected 4 [0, 1, 2, 3] (s.collected.edges.map tuple4)
      ((vectorOf (s.collected.edges.map tuple4)).startIndexing 4 bufferSize [0, 1, 2, 3]) :=
    collected_vectorOf bufferSize (by decide) rfl (length_tuples (f := tuple4) (fun _ => rfl) _)
  have hv1 : DiskVector.Collected 1 [0] ((nodeIds s.collected).map ([·]))
      ((nodesLoop s.collected).declaredNodes.finishAppends.startIndexing 1 bufferSize [0]) :=
    DiskVector.collected_startIndexing bufferSize (by decide) rfl hcontents rfl
      (length_tuples (f := ([·])) (fun _ => rfl) _)
  obtain ⟨-, -, hnodes, -⟩ := hv1.createBpt (by decide) (by decide) (.refl _) hnodes
  obtain ⟨⟨hnodeLabel, -⟩, hlabelNode, hlabelStat⟩ := createTwoBpts_ok (hv2 _) (by decide)
    (by decide) (.refl _) (.swap _ _ _) hlabels
  obtain ⟨⟨hobjectKeyValue, -⟩, hkeyValueObject, hpropStat⟩ := createTwoBpts_ok (hv3 _) (by decide)
    (by decide) (.refl _) (show List.Perm [1, 2, 0] [0, 1, 2] by decide) hproperties
  obtain ⟨hv₁, hcurrent₁, hfromTo, -⟩ := hv4.createBpt (by decide) (by decide) (.refl _) hfromTo
  obtain ⟨hv₂, hcurrent₂, htoType, -⟩ := hv₁.createBpt (by decide) (by decide)
    (hcurrent₁ ▸ show List.Perm [1, 2, 0, 3] [0, 1, 2, 3] by decide) htoType
  obtain ⟨hv₃, hcurrent₃, htypeFrom, -⟩ := hv₂.createBpt (by decide) (by decide)
    (by rw [hcurrent₂]; decide) htypeFrom
  obtain ⟨-, -, htypeTo, -⟩ := hv₃.createBpt (by decide) (by decide)
    (by rw [hcurrent₃]; decide) htypeTo
  obtain ⟨-, -, hequalFromToType, -⟩ :=
    (hv2 _).createBpt (by decide) (by decide) (.refl _) hequalFromToType
  obtain ⟨⟨hequalFromTo, -⟩, hequalFromToInverted, -⟩ := createTwoBpts_ok (hv3 _) (by decide)
    (by decide) (.refl _) (.swap _ _ _) hequalFromTo
  obtain ⟨⟨hequalFromType, -⟩, hequalFromTypeInverted, -⟩ := createTwoBpts_ok (hv3 _) (by decide)
    (by decide) (.refl _) (.swap _ _ _) hequalFromType
  obtain ⟨⟨hequalToType, -⟩, hequalToTypeInverted, -⟩ := createTwoBpts_ok (hv3 _) (by decide)
    (by decide) (.refl _) (.swap _ _ _) hequalToType
  rw [List.map_map] at hnodes hnodeLabel hlabelNode hlabelStat hobjectKeyValue hkeyValueObject
  rw [List.map_map] at hpropStat hfromTo htoType htypeFrom htypeTo hequalFromToType
  rw [List.map_map] at hequalFromTo hequalFromToInverted hequalFromType hequalFromTypeInverted
  rw [List.map_map] at hequalToType hequalToTypeInverted
  constructor
  · intro i
    cases i with
    | nodes => exact hnodes
    | labelNode => exact hlabelNode
    | nodeLabel => exact hnodeLabel
    | objectKeyValue => exact hobjectKeyValue
    | keyValueObject => exact hkeyValueObject
    | fromToTypeEdge => exact hfromTo
    | toTypeFromEdge => exact htoType
    | typeFromToEdge => exact htypeFrom
    | typeToFromEdge => exact htypeTo
    | equalFromTo => exact hequalFromTo
    | equalFromType => exact hequalFromType
    | equalToType => exact hequalToType
    | equalFromToType => exact hequalFromToType
    | equalFromToInverted => exact hequalFromToInverted
    | equalFromTypeInverted => exact hequalFromTypeInverted
    | equalToTypeInverted => exact hequalToTypeInverted
  · exact htable
  · exact congrArg List.length (file_vectorOf _) |>.trans (List.length_map _)
  · exact congrArg LabelStat.finish hlabelStat
  · exact congrArg (fun stat => (PropStat.finish stat).1) hpropStat
  · exact congrArg (fun stat => (PropStat.finish stat).2) hpropStat
  · rfl
  · rfl

def importing {α : Type} (f : OnDiskImport → Imported → α) (lexemes : List Lexeme) :
    Option (Except Failure α) :=
  (readTokens (fun _ => 0) (.lineBegin, .start (fun _ => 0) 0 0 0 0 0 true) lexemes).toOption.map
    fun final => (startImport 1 final.2).map (f final.2)

theorem exists_imported {α : Type} {f : OnDiskImport → Imported → α} {lexemes : List Lexeme}
    {value : α} (h : importing f lexemes = some (.ok value)) : ∃ final imported,
      readTokens (fun _ => 0) (.lineBegin, .start (fun _ => 0) 0 0 0 0 0 true) lexemes = .ok final ∧
        startImport 1 final.2 = .ok imported ∧ f final.2 imported = value := by
  rw [importing] at h
  cases hread : readTokens (fun _ => 0) (.lineBegin, .start (fun _ => 0) 0 0 0 0 0 true) lexemes with
  | error e =>
    rw [hread] at h
    cases h
  | ok final =>
    rw [hread] at h
    replace h : (startImport 1 final.2).map (f final.2) = .ok value := Option.some.inj h
    cases himport : startImport 1 final.2 with
    | error e =>
      rw [himport] at h
      cases h
    | ok imported =>
      rw [himport] at h
      exact ⟨final, imported, rfl, himport, Except.ok.inj h⟩

end Import
end MillenniumDB
