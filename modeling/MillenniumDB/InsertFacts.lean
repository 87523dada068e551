import MillenniumDB.QuadInserts

/-!
# Queries that fail half way

The items of an INSERT query state facts in ids.  A query that throws leaves behind what it wrote
for the items before, and part of what it wrote for the one that failed.
-/

namespace MillenniumDB

open Exec
open Import (column)

inductive Fact
  | label (labelId nodeId : Nat)
  | property (objId keyId valId : Nat)
  | edge (source target type : Nat)
  deriving DecidableEq

namespace Fact

/-- The statements for a fact, from what `connections_count` is before them. -/
def writes (connectionsCount : Nat) : Fact → List Write
  | label labelId nodeId => labelWrites labelId nodeId
  | property objId keyId valId => propertyWrites objId keyId valId
  | edge source target type =>
    let edgeId := (connectionsCount + 1) ||| ObjectId.maskEdge
    connectionWrites source target type edgeId ++ equalWrites source target type edgeId

/-- What a fact adds to `connections_count`. -/
def connections : Fact → Nat
  | edge _ _ _ => 2
  | _ => 0

end Fact

def rowsOfFacts : Nat → List Fact → List (Index × Tuple)
  | _, [] => []
  | connectionsCount, fact :: facts =>
    rowsOf (fact.writes connectionsCount) ++
      rowsOfFacts (connectionsCount + fact.connections) facts

inductive Item
  | label (op : OpLabel)
  | property (op : OpProperty)
  | edge (op : OpEdge)

def OpInsert.items (opInsert : OpInsert) : List Item :=
  opInsert.labels.map .label ++ (opInsert.properties.map .property ++ opInsert.edges.map .edge)

section

variable (strId : Bytes → UInt64)

def Item.fact : Item → Except String Fact
  | label op => do
    let labelId ← getOrCreateObjectId strId (.string op.label)
    let nodeId ← getOrCreateObjectId strId op.node
    return .label labelId nodeId
  | property op => do
    let objId ← getOrCreateObjectId strId op.node
    let keyId ← getOrCreateObjectId strId (.string op.key)
    let valId ← getOrCreateObjectId strId op.value
    return .property objId keyId valId
  | edge op => do
    let source ← getOrCreateObjectId strId op.source
    let target ← getOrCreateObjectId strId op.target
    let type ← getOrCreateObjectId strId op.type
    return .edge source target type

def Item.insert : Item → Exec Unit
  | label op => insertLabel strId op
  | property op => insertProperty strId op
  | edge op => insertEdge strId op

theorem execInserts_eq (opInsert : OpInsert) :
    execInserts strId opInsert = forM opInsert.items (Item.insert strId) := by
  simp only [execInserts, OpInsert.items, List.forM_eq_forM, List.forM_append, List.forM_map]
  rfl

variable {strId} {item : Item} {items : List Item} {db db' : Database} {e : String}

theorem objectId_ok {element : QueryElement} {id : Nat}
    (h : getOrCreateObjectId strId element = .ok id) (db : Database) :
    objectId strId element db = .ok id db := by
  rw [objectId, h]
  rfl

theorem objectId_error {element : QueryElement}
    (h : getOrCreateObjectId strId element = .error e) (db : Database) :
    objectId strId element db = .error e db := by
  rw [objectId, h]
  rfl

theorem Item.insert_eq (item : Item) (db : Database) : item.insert strId db =
    match item.fact strId with
    | .ok fact => runWrites (fact.writes db.catalog.connectionsCount) db
    | .error e => .error e db := by
  cases item with
  | label op =>
    simp only [Item.insert, insertLabel, Item.fact, bind, EStateM.bind, Except.bind]
    cases hlabel : getOrCreateObjectId strId (.string op.label) with
    | error e => simp only [objectId_error hlabel]
    | ok labelId =>
      cases hnode : getOrCreateObjectId strId op.node with
      | error e => simp only [objectId_ok hlabel, objectId_error hnode]
      | ok nodeId =>
        simp only [objectId_ok hlabel, objectId_ok hnode]
        rfl
  | property op =>
    simp only [Item.insert, insertProperty, Item.fact, bind, EStateM.bind, Except.bind]
    cases hobj : getOrCreateObjectId strId op.node with
    | error e => simp only [objectId_error hobj]
    | ok objId =>
      cases hkey : getOrCreateObjectId strId (.string op.key) with
      | error e => simp only [objectId_ok hobj, objectId_error hkey]
      | ok keyId =>
        cases hval : getOrCreateObjectId strId op.value with
        | error e => simp only [objectId_ok hobj, objectId_ok hkey, objectId_error hval]
        | ok valId =>
          simp only [objectId_ok hobj, objectId_ok hkey, objectId_ok hval]
          rfl
  | edge op =>
    simp only [Item.insert, insertEdge, Item.fact, bind, EStateM.bind, Except.bind]
    cases hsource : getOrCreateObjectId strId op.source with
    | error e => simp only [objectId_error hsource]
    | ok source =>
      cases htarget : getOrCreateObjectId strId op.target with
      | error e => simp only [objectId_ok hsource, objectId_error htarget]
      | ok target =>
        cases htype : getOrCreateObjectId strId op.type with
        | error e => simp only [objectId_ok hsource, objectId_ok htarget, objectId_error htype]
        | ok type =>
          simp only [objectId_ok hsource, objectId_ok htarget, objectId_ok htype]
          rfl

end

section

variable {source target type edgeId : Nat}

theorem rowsOf_labelWrites (labelId nodeId : Nat) : rowsOf (labelWrites labelId nodeId) =
    [(.labelNode, [labelId, nodeId]), (.nodeLabel, [nodeId, labelId])] := rfl

theorem rowsOf_propertyWrites (objId keyId valId : Nat) :
    rowsOf (propertyWrites objId keyId valId) =
      [(.keyValueObject, [keyId, valId, objId]), (.objectKeyValue, [objId, keyId, valId])] := rfl

theorem rowsOf_connectionWrites : rowsOf (connectionWrites source target type edgeId) =
    [(.typeFromToEdge, [type, source, target, edgeId]),
      (.typeToFromEdge, [type, target, source, edgeId]),
      (.fromToTypeEdge, [source, target, type, edgeId]),
      (.toTypeFromEdge, [target, type, source, edgeId])] := rfl

theorem rowsOf_equalWrites : rowsOf (equalWrites source target type edgeId) =
    (if source = target then
      [(Index.equalFromTo, [source, type, edgeId]),
        (Index.equalFromToInverted, [type, source, edgeId])] ++
        if source = type then [(Index.equalFromToType, [source, edgeId])] else []
    else []) ++
    (if source = type then
      [(Index.equalFromType, [source, target, edgeId]),
        (Index.equalFromTypeInverted, [target, source, edgeId])]
    else []) ++
    if type = target then
      [(Index.equalToType, [target, source, edgeId]),
        (Index.equalToTypeInverted, [source, target, edgeId])]
    else [] := by
  rw [equalWrites]
  split_ifs <;> rfl

end

section

variable {fact : Fact} {facts : List Fact} {connectionsCount : Nat} {db db' : Database}

theorem nodes_notMem_rowsOf (fact : Fact) (connectionsCount : Nat) :
    ∀ row ∈ rowsOf (fact.writes connectionsCount), row.1 ≠ .nodes := by
  have hnotMem : .nodes ∉ (rowsOf (fact.writes connectionsCount)).map Prod.fst := by
    cases fact with
    | label labelId nodeId => simp [Fact.writes, rowsOf_labelWrites]
    | property objId keyId valId => simp [Fact.writes, rowsOf_propertyWrites]
    | edge source target type =>
      rw [Fact.writes, rowsOf_append, rowsOf_connectionWrites, rowsOf_equalWrites]
      split_ifs <;> simp
  intro row hrow hnodes
  exact hnotMem (List.mem_map.mpr ⟨row, hrow, hnodes⟩)

/-- The value of a property is counted, since the record that was just inserted is in the range of
its key and its value. -/
theorem applyWrites_propertyWrites (objId keyId valId : Nat) (db : Database) :
    let db' := applyWrites ((propertyWrites objId keyId valId).take 5) db
    applyWrites (propertyWrites objId keyId valId) db =
      applyWrites ((propertyWrites objId keyId valId).drop 6) { db' with
        catalog := { db'.catalog with key2distinct := db'.catalog.key2distinct.bump keyId } } := by
  intro db'
  have hmem : [keyId, valId, objId] ∈ db'.index .keyValueObject :=
    (mem_index_applyWrites (by simp)).mpr (.inl (by simp [propertyWrites, rowsOf, Write.target]))
  have hany : (db'.index .keyValueObject).any fun r => column 0 r = keyId ∧ column 1 r = valId :=
    List.any_eq_true.mpr ⟨_, hmem, by simp [column]⟩
  have hsplit : applyWrites (propertyWrites objId keyId valId) db =
      applyWrites ((propertyWrites objId keyId valId).drop 5) db' := by
    rw [← applyWrites_append, List.take_append_drop]
  have hstep : (Write.catalogIfAny .keyValueObject keyId valId fun c =>
      { c with key2distinct := c.key2distinct.bump keyId }).apply db' = { db' with
        catalog := { db'.catalog with key2distinct := db'.catalog.key2distinct.bump keyId } } :=
    if_pos hany
  rw [hsplit, ← hstep]
  rfl

def QuadCatalog.withoutEqual (c : QuadCatalog) : QuadCatalog := { c with
  equalFromToCount := 0
  equalFromTypeCount := 0
  equalToTypeCount := 0
  equalFromToTypeCount := 0
  type2equalFromToTypeCount := ∅
  type2equalFromToCount := ∅
  type2equalFromTypeCount := ∅
  type2equalToTypeCount := ∅ }

theorem forall_mem_ite {α : Type} {q : Prop} [Decidable q] {l : List α} {P : α → Prop}
    (h : ∀ x ∈ l, P x) : ∀ x ∈ if q then l else [], P x := by
  split_ifs
  · exact h
  · exact List.forall_mem_nil P

theorem keeps_equalWrites {α : Type} {g : QuadCatalog → α} (hg : ∀ c, g c.withoutEqual = g c)
    (source target type edgeId : Nat) :
    ∀ w ∈ equalWrites source target type edgeId, w.Keeps g := by
  have hkeeps : ∀ w ∈ equalWrites source target type edgeId,
      w.Keeps QuadCatalog.withoutEqual := by
    rw [equalWrites, List.forall_mem_append, List.forall_mem_append]
    refine ⟨⟨forall_mem_ite ?_, forall_mem_ite ?_⟩, forall_mem_ite ?_⟩
    · rw [List.forall_mem_append]
      refine ⟨?_, forall_mem_ite ?_⟩
      all_goals simp [Write.Keeps, QuadCatalog.withoutEqual]
    all_goals simp [Write.Keeps, QuadCatalog.withoutEqual]
  intro w hw
  have hw := hkeeps w hw
  cases w with
  | node _ => exact fun c identifiable anonymous => by rw [← hg, hw, hg]
  | row _ _ => exact trivial
  | append _ => exact trivial
  | catalog f => exact fun c => by rw [← hg, hw, hg]
  | catalogIfAny _ _ _ f => exact fun c => by rw [← hg, hw, hg]

theorem Fact.rowsOf_ne_nil (fact : Fact) : rowsOf (fact.writes connectionsCount) ≠ [] := by
  cases fact with
  | label labelId nodeId => simp [writes, rowsOf_labelWrites]
  | property objId keyId valId => simp [writes, rowsOf_propertyWrites]
  | edge source target type => simp [writes, rowsOf_append, rowsOf_connectionWrites]

theorem nodes_notMem_rowsOfFacts (facts : List Fact) (connectionsCount : Nat) :
    ∀ row ∈ rowsOfFacts connectionsCount facts, row.1 ≠ .nodes := by
  induction facts generalizing connectionsCount with
  | nil => exact fun _ hrow => absurd hrow List.not_mem_nil
  | cons fact facts ih =>
    intro row hrow
    rcases List.mem_append.mp hrow with hrow | hrow
    · exact nodes_notMem_rowsOf fact connectionsCount row hrow
    · exact ih _ row hrow

namespace Fact

def apply (fact : Fact) (db : Database) : Database :=
  applyWrites (fact.writes db.catalog.connectionsCount) db

/-- The counts of the catalog that facts change, other than those of nodes and of all labels and
properties and those of edges with equal ends. -/
structure Stats where
  connectionsCount : Nat
  label2totalCount : Counts Nat
  key2totalCount : Counts Nat
  key2distinct : Counts Nat
  type2totalCount : Counts Nat

def stats (c : QuadCatalog) : Stats :=
  ⟨c.connectionsCount, c.label2totalCount, c.key2totalCount, c.key2distinct, c.type2totalCount⟩

def count : Fact → Stats → Stats
  | label labelId _, s => { s with label2totalCount := s.label2totalCount.bump labelId }
  | property _ keyId _, s =>
    { s with
      key2totalCount := s.key2totalCount.bump keyId
      key2distinct := s.key2distinct.bump keyId }
  | edge _ _ type, s =>
    { s with
      connectionsCount := s.connectionsCount + 2
      type2totalCount := s.type2totalCount.bump type }

theorem stats_addNode (nodeId : Nat) (db : Database) :
    stats (db.addNode nodeId).catalog = stats db.catalog := by
  obtain ⟨identifiable, anonymous, h⟩ := @Write.catalog_addNode db nodeId
  rw [h]
  rfl

theorem stats_equalWrites (source target type edgeId : Nat) (db : Database) :
    stats (applyWrites (equalWrites source target type edgeId) db).catalog = stats db.catalog := by
  apply keeps_applyWrites
  exact keeps_equalWrites (fun _ => rfl) source target type edgeId

theorem stats_apply (fact : Fact) (db : Database) :
    stats (fact.apply db).catalog = fact.count (stats db.catalog) := by
  cases fact with
  | label labelId nodeId =>
    rw [count, ← stats_addNode nodeId db]
    rfl
  | property objId keyId valId =>
    let db' := applyWrites ((propertyWrites objId keyId valId).take 5) db
    have hstats : stats db'.catalog =
        { stats db.catalog with key2totalCount := db.catalog.key2totalCount.bump keyId } :=
      congrArg (fun s : Stats => { s with key2totalCount := s.key2totalCount.bump keyId })
        (stats_addNode objId db)
    have happly : (property objId keyId valId).apply db =
        applyWrites ((propertyWrites objId keyId valId).drop 6) { db' with
          catalog := { db'.catalog with key2distinct := db'.catalog.key2distinct.bump keyId } } :=
      applyWrites_propertyWrites objId keyId valId db
    rw [happly]
    exact congrArg (fun s : Stats => { s with key2distinct := s.key2distinct.bump keyId }) hstats
  | edge source target type =>
    rw [apply, writes, applyWrites_append, stats_equalWrites]
    let db' : Database := { db with
      catalog := { db.catalog with connectionsCount := db.catalog.connectionsCount + 1 } }
    have hnodes : stats (((db'.addNode source).addNode target).addNode type).catalog =
        stats db'.catalog := by
      rw [stats_addNode, stats_addNode, stats_addNode]
    exact congrArg (fun s : Stats => { s with
      connectionsCount := s.connectionsCount + 1
      type2totalCount := s.type2totalCount.bump type }) hnodes

end Fact

def applyFacts (facts : List Fact) (db : Database) : Database :=
  facts.foldl (fun db fact => fact.apply db) db

theorem fresh_cons : Fresh (rowsOfFacts db.catalog.connectionsCount (fact :: facts)) db ↔
    Fresh (rowsOf (fact.writes db.catalog.connectionsCount)) db ∧
      Fresh (rowsOfFacts (fact.apply db).catalog.connectionsCount facts) (fact.apply db) := by
  have hcount : (fact.apply db).catalog.connectionsCount =
      db.catalog.connectionsCount + fact.connections := by
    have := congrArg Fact.Stats.connectionsCount (fact.stats_apply db)
    cases fact <;> exact this
  rw [rowsOfFacts, fresh_append (nodes_notMem_rowsOfFacts facts _), hcount]
  rfl

namespace Fact

/-- The first record of the fact is in its tree, and the node of the fact is a node already. -/
def Refused (db : Database) : Fact → Prop
  | label labelId nodeId => [labelId, nodeId] ∈ db.index .labelNode ∧ [nodeId] ∈ db.index .nodes
  | property objId keyId valId =>
    [keyId, valId, objId] ∈ db.index .keyValueObject ∧ [objId] ∈ db.index .nodes
  | edge _ _ _ => False

theorem Refused.not_fresh (h : fact.Refused db) : ¬ Fresh (rowsOf (fact.writes connectionsCount)) db := by
  intro hfresh
  cases fact with
  | label labelId nodeId => exact hfresh.2 _ List.mem_cons_self h.1
  | property objId keyId valId => exact hfresh.2 _ List.mem_cons_self h.1
  | edge source target type => exact h

theorem addNode_of_mem {nodeId : Nat} (h : [nodeId] ∈ db.index .nodes) : db.addNode nodeId = db :=
  if_pos h

theorem addNode_ne {nodeId : Nat} (h : [nodeId] ∉ db.index .nodes) : db.addNode nodeId ≠ db := by
  intro heq
  have hlength := congrArg (fun db : Database => (db.index .nodes).length) heq
  simp [Write.index_addNode_eq, h, List.orderedInsert_length] at hlength

theorem split_at_first {head tail ws₁ ws₂ : List Write} {i j : Index} {record record' : Tuple}
    (hhead : rowsOf head = [])
    (hws : head ++ .row i record :: tail = ws₁ ++ .row j record' :: ws₂) :
    (ws₁ = head ∧ j = i ∧ record' = record) ∨ (i, record) ∈ rowsOf ws₁ := by
  induction head generalizing ws₁ with
  | nil =>
    cases ws₁ with
    | nil =>
      cases hws
      exact .inl ⟨rfl, rfl, rfl⟩
    | cons w ws₁ =>
      cases hws
      exact .inr List.mem_cons_self
  | cons w head ih =>
    have hnone : w.target = none := by
      cases htarget : w.target with
      | none => rfl
      | some row => simp [rowsOf, htarget] at hhead
    have hrest : rowsOf head = [] := by simpa [rowsOf, hnone] using hhead
    cases ws₁ with
    | nil =>
      obtain ⟨rfl, -⟩ := List.cons.inj hws
      cases hnone
    | cons w' ws₁ =>
      obtain ⟨rfl, htail⟩ := List.cons.inj hws
      rcases ih hrest htail with ⟨rfl, hj, hrecord⟩ | hmem
      · exact .inl ⟨rfl, hj, hrecord⟩
      · refine .inr ?_
        rw [← List.singleton_append, rowsOf_append]
        exact List.mem_append_right _ hmem

/-- The statements of a fact that run before one throws leave the database as it is exactly when
the fact is refused. -/
theorem refused_iff {ws₁ ws₂ : List Write} {i : Index} {record : Tuple}
    (hws : fact.writes connectionsCount = ws₁ ++ .row i record :: ws₂)
    (hfresh : Fresh (rowsOf ws₁) db) (hrecord : record ∈ (applyWrites ws₁ db).index i) :
    applyWrites ws₁ db = db ↔ fact.Refused db := by
  have hlonger : ∀ row ∈ rowsOf ws₁, applyWrites ws₁ db ≠ db := by
    intro row hrow heq
    have hnodes : ∀ row ∈ rowsOf ws₁, row.1 ≠ .nodes := by
      intro row hrow
      apply nodes_notMem_rowsOf fact connectionsCount
      rw [hws, rowsOf_append]
      exact List.mem_append_left _ hrow
    obtain ⟨j, hj⟩ := exists_length_lt hnodes (List.ne_nil_of_mem hrow) db
    rw [heq] at hj
    exact Nat.lt_irrefl _ hj
  cases fact with
  | label labelId nodeId =>
    rcases @split_at_first [.node nodeId] _ _ _ _ _ _ _ rfl hws with ⟨rfl, rfl, rfl⟩ | hmem
    · have hstored : [labelId, nodeId] ∈ db.index .labelNode := by
        rw [← @Write.index_addNode _ nodeId _ (by simp : Index.labelNode ≠ .nodes)]
        exact hrecord
      exact ⟨fun heq => ⟨hstored, not_imp_not.mp addNode_ne heq⟩, fun h => addNode_of_mem h.2⟩
    · exact ⟨fun heq => absurd heq (hlonger _ hmem), fun h => absurd h.1 (hfresh.2 _ hmem)⟩
  | property objId keyId valId =>
    rcases @split_at_first [.node objId] _ _ _ _ _ _ _ rfl hws with ⟨rfl, rfl, rfl⟩ | hmem
    · have hstored : [keyId, valId, objId] ∈ db.index .keyValueObject := by
        rw [← @Write.index_addNode _ objId _ (by simp : Index.keyValueObject ≠ .nodes)]
        exact hrecord
      exact ⟨fun heq => ⟨hstored, not_imp_not.mp addNode_ne heq⟩, fun h => addNode_of_mem h.2⟩
    · exact ⟨fun heq => absurd heq (hlonger _ hmem), fun h => absurd h.1 (hfresh.2 _ hmem)⟩
  | edge source target type =>
    refine ⟨fun heq => ?_, fun h => absurd h id⟩
    rcases @split_at_first ((connectionWrites source target type
      ((connectionsCount + 1) ||| ObjectId.maskEdge)).take 4) _ _ _ _ _ _ _ rfl hws with ⟨rfl, -, -⟩ | hmem
    · let db' : Database := { db with
        catalog := { db.catalog with connectionsCount := db.catalog.connectionsCount + 1 } }
      have hnodes : stats (((db'.addNode source).addNode target).addNode type).catalog =
          stats db'.catalog := by
        rw [stats_addNode, stats_addNode, stats_addNode]
      have hcount := congrArg (fun db => (stats db.catalog).connectionsCount) heq
      have hmore := congrArg Stats.connectionsCount hnodes
      exact absurd (hcount.symm.trans hmore) (Nat.ne_of_lt (Nat.lt_succ_self _))
    · exact hlonger _ hmem heq

end Fact

end

section

variable (strId : Bytes → UInt64) {item : Item} {items : List Item} {db db' : Database} {e : String}

theorem Item.insert_cases (item : Item) (db : Database) :
    (∃ fact, item.fact strId = .ok fact ∧
      Fresh (rowsOf (fact.writes db.catalog.connectionsCount)) db ∧
        item.insert strId db = .ok () (fact.apply db)) ∨
    (∃ e db', item.insert strId db = .error e db' ∧
      (∀ i, (db.index i).length ≤ (db'.index i).length) ∧
      (∀ fact, item.fact strId = .ok fact →
        ¬ Fresh (rowsOf (fact.writes db.catalog.connectionsCount)) db ∧
          (db' = db ↔ fact.Refused db)) ∧
      ∀ e', item.fact strId = .error e' → db' = db) := by
  have hinsert := @Item.insert_eq strId item db
  cases hfact : item.fact strId with
  | error e =>
    rw [hfact] at hinsert
    exact .inr ⟨e, db, hinsert, fun i => Nat.le_refl _, fun fact h => (by cases h), fun _ _ => rfl⟩
  | ok fact =>
    rw [hfact] at hinsert
    rcases @runWrites_eq _ db (nodes_notMem_rowsOf fact db.catalog.connectionsCount) with
      ⟨hfresh, hok⟩ | ⟨hfresh, ws₁, i, record, ws₂, hws, hbefore, hrecord, herror⟩
    · exact .inl ⟨fact, rfl, hfresh, hinsert.trans hok⟩
    · refine .inr ⟨_, _, hinsert.trans herror, length_applyWrites ws₁ db, ?_, fun _ h => (by cases h)⟩
      intro fact' h
      cases h
      exact ⟨hfresh, Fact.refused_iff hws hbefore hrecord⟩

theorem forM_cons_ok {f : Item → Exec Unit} (h : f item db = .ok () db') :
    forM (item :: items) f db = forM items f db' := by
  rw [List.forM_cons]
  simp only [bind, EStateM.bind, h]

theorem forM_cons_error {f : Item → Exec Unit} (h : f item db = .error e db') :
    forM (item :: items) f db = .error e db' := by
  rw [List.forM_cons]
  simp only [bind, EStateM.bind, h]

theorem mapM_cons_ok {f : Item → Except String Fact} {facts : List Fact} :
    (item :: items).mapM f = .ok facts ↔
      ∃ fact rest, f item = .ok fact ∧ items.mapM f = .ok rest ∧ facts = fact :: rest := by
  rw [List.mapM_cons]
  cases f item with
  | error e => simp [bind, Except.bind]
  | ok fact =>
    cases items.mapM f with
    | error e => simp [bind, Except.bind]
    | ok rest => simp [bind, Except.bind, pure, Except.pure, eq_comm]

/-- What the rounds of many items do: they write facts that are fresh, or one of them throws. -/
theorem inserts_cases (items : List Item) (db : Database) :
    (∃ facts, items.mapM (Item.fact strId) = .ok facts ∧
      Fresh (rowsOfFacts db.catalog.connectionsCount facts) db ∧
        forM items (Item.insert strId) db = .ok () (applyFacts facts db)) ∨
    (∃ e db', forM items (Item.insert strId) db = .error e db' ∧
      (∀ i, (db.index i).length ≤ (db'.index i).length) ∧
      ∀ facts, items.mapM (Item.fact strId) = .ok facts →
        ¬ Fresh (rowsOfFacts db.catalog.connectionsCount facts) db) := by
  induction items generalizing db with
  | nil => exact .inl ⟨[], rfl, fresh_nil, rfl⟩
  | cons item items ih =>
    rcases item.insert_cases strId db with
      ⟨fact, hfact, hfresh, hok⟩ | ⟨e, db', herror, hlength, hfacts, -⟩
    · rcases ih (fact.apply db) with
        ⟨facts, hmap, hrest, hrun⟩ | ⟨e, db', hrun, hlength, hnot⟩
      · exact .inl ⟨fact :: facts, mapM_cons_ok.mpr ⟨fact, facts, hfact, hmap, rfl⟩,
          fresh_cons.mpr ⟨hfresh, hrest⟩, (forM_cons_ok hok).trans hrun⟩
      · refine .inr ⟨e, db', (forM_cons_ok hok).trans hrun, fun i => ?_, ?_⟩
        · exact (length_applyWrites _ db i).trans (hlength i)
        · intro facts hmap hall
          obtain ⟨fact', rest, hfact', hrest, rfl⟩ := mapM_cons_ok.mp hmap
          cases hfact.symm.trans hfact'
          exact hnot rest hrest (fresh_cons.mp hall).2
    · refine .inr ⟨e, db', forM_cons_error herror, hlength, ?_⟩
      intro facts hmap hall
      obtain ⟨fact, rest, hfact, -, rfl⟩ := mapM_cons_ok.mp hmap
      exact (hfacts fact hfact).1 (fresh_cons.mp hall).1

/-- A query that throws leaves the indexes, the edge table and the catalog as they were. -/
def Atomic (opInsert : OpInsert) (db : Database) : Prop :=
  ∀ e db', execInserts strId opInsert db = .error e db' → db' = db

/-- All items of a query have ids, and no record that they put into a tree is in it already or
comes twice. -/
def Accepted (opInsert : OpInsert) (db : Database) : Prop :=
  ∃ facts, opInsert.items.mapM (Item.fact strId) = .ok facts ∧
    Fresh (rowsOfFacts db.catalog.connectionsCount facts) db

/-- The first item of a query has no ids, or it is a label or a property that is stored already
with its node. -/
def RefusedAtOnce (opInsert : OpInsert) (db : Database) : Prop :=
  ∃ item items, opInsert.items = item :: items ∧
    ∀ fact, item.fact strId = .ok fact → fact.Refused db

end

/- The label of the second item is stored already; that of the first item stays. -/

def oneLabel : OpInsert where
  labels := [⟨.namedNode [97], [108]⟩]
  properties := []
  edges := []

def twoLabels : OpInsert where
  labels := [⟨.namedNode [98], [108]⟩, ⟨.namedNode [97], [108]⟩]
  properties := []
  edges := []

end MillenniumDB
