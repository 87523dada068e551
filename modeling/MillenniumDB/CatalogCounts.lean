import MillenniumDB.PagedInserts

/-!
# The counts of the catalog

Import computes the counts for labels, keys and types from the sorted records, `exec_inserts`
adds to them as it writes.  A property makes `exec_inserts` ask whether the key has the value
after the record with both is in the tree.
-/

namespace MillenniumDB

open Import (Imported OnDiskImport State Lexeme readTokens startImport column)
open Import.PropStat (valuesOf)

/-- The counts are those of the records: the nodes of a label, the records and the values of a
key, and the edges of a type.  No label and no key has the id 0. -/
structure CountsRight (db : Database) : Prop where
  labels : ∀ labelId ≠ 0,
    db.catalog.label2totalCount.get labelId = (valuesOf labelId (db.index .labelNode)).card
  keys : ∀ keyId ≠ 0, db.catalog.key2totalCount.get keyId =
    ((db.index .keyValueObject).map (column 0)).count keyId
  values : ∀ keyId ≠ 0,
    db.catalog.key2distinct.get keyId = (valuesOf keyId (db.index .keyValueObject)).card
  types : ∀ typeId, db.catalog.type2totalCount.get typeId =
    ((db.index .typeFromToEdge).map (column 0)).count typeId

def edgeIndexes : List Index :=
  [.fromToTypeEdge, .toTypeFromEdge, .typeFromToEdge, .typeToFromEdge, .equalFromTo,
    .equalFromType, .equalToType, .equalFromToType, .equalFromToInverted, .equalFromTypeInverted,
    .equalToTypeInverted]

/-- What keeps a query from throwing half way through an item: the two indexes for labels and the
two for properties agree, and edges have numbers that were given already. -/
structure Consistent (db : Database) : Prop where
  nodeLabel : ∀ nodeId labelId, [nodeId, labelId] ∈ db.index .nodeLabel →
    [labelId, nodeId] ∈ db.index .labelNode
  objectKeyValue : ∀ objId keyId valId, [objId, keyId, valId] ∈ db.index .objectKeyValue →
    [keyId, valId, objId] ∈ db.index .keyValueObject
  labelNode : ∀ record ∈ db.index .labelNode, record.length = 2
  keyValueObject : ∀ record ∈ db.index .keyValueObject, record.length = 3
  edges : ∀ i ∈ edgeIndexes, ∀ record ∈ db.index i,
    ∃ k ≤ db.catalog.connectionsCount, record.getLast? = some (k ||| ObjectId.maskEdge)

theorem valuesOf_perm {k : Nat} {tuples tuples' : List Tuple} (h : tuples.Perm tuples') :
    valuesOf k tuples = valuesOf k tuples' := by
  rw [valuesOf, valuesOf]
  exact List.toFinset_eq_of_perm _ _ ((h.filter _).map _)

theorem valuesOf_cons (k : Nat) (tuple : Tuple) (tuples : List Tuple) :
    valuesOf k (tuple :: tuples) =
      if column 0 tuple = k then insert (column 1 tuple) (valuesOf k tuples)
      else valuesOf k tuples := by
  rw [valuesOf, List.filter_cons]
  split_ifs <;> simp_all [valuesOf]

theorem card_valuesOf {k : Nat} {tuples : List Tuple} (hnodup : tuples.Nodup)
    (hlength : ∀ tuple ∈ tuples, tuple.length = 2) :
    (valuesOf k tuples).card = (tuples.map (column 0)).count k := by
  induction tuples with
  | nil => rfl
  | cons tuple tuples ih =>
    obtain ⟨hmem, hnodup⟩ := List.nodup_cons.mp hnodup
    obtain ⟨htuple, hrest⟩ := List.forall_mem_cons.mp hlength
    rw [valuesOf_cons, List.map_cons, List.count_cons, ← ih hnodup hrest]
    by_cases hk : column 0 tuple = k
    · rw [if_pos hk, if_pos (beq_iff_eq.mpr hk), Finset.card_insert_of_notMem]
      intro hvalue
      rw [valuesOf, List.mem_toFinset, List.mem_map] at hvalue
      obtain ⟨other, hother, hcolumn⟩ := hvalue
      obtain ⟨hother, hfirst⟩ := List.mem_filter.mp hother
      have hfirst : column 0 other = k := of_decide_eq_true hfirst
      have hsame : other = tuple := by
        obtain ⟨a, b, rfl⟩ := List.length_eq_two.mp htuple
        obtain ⟨c, d, rfl⟩ := List.length_eq_two.mp (hrest other hother)
        simp_all [column]
      exact hmem (hsame ▸ hother)
    · rw [if_neg hk, if_neg (by simpa using hk), Nat.add_zero]

namespace Import

theorem get_insert_foldl (f : Nat × Nat × Nat × Nat → Nat) (g : Nat → Nat)
    (edges : List (Nat × Nat × Nat × Nat)) (m : Counts Nat) (k : Nat) :
    (edges.foldl (fun m edge => m.insert (f edge) (g (f edge))) m).get k =
      if k ∈ edges.map f then g k else m.get k := by
  induction edges generalizing m with
  | nil => simp
  | cons edge edges ih =>
    rw [List.foldl_cons, ih, List.map_cons]
    by_cases hk : k ∈ edges.map f
    · rw [if_pos hk, if_pos (List.mem_cons_of_mem _ hk)]
    · rw [if_neg hk]
      by_cases heq : k = f edge
      · rw [if_pos (by rw [heq]; exact List.mem_cons_self), heq]
        simp [Counts.get]
      · rw [if_neg (by simp [heq, hk]), Counts.get, AList.lookup_insert_ne heq]
        rfl

section

variable {s : OnDiskImport} {imported : Imported}

theorem get_type2totalCount (hnumbered : Numbered s) (t : Nat) :
    (type2totalCount s).get t = (s.collected.edges.map (·.2.2.1)).count t := by
  rw [type2totalCount, get_insert_foldl (fun edge => edge.2.2.1), hnumbered.types]
  split_ifs with ht
  · rfl
  · exact (List.count_eq_zero.mpr ht).symm

theorem Writes.index_eq (h : Writes s imported) (i : Index) :
    imported.database.index i = run s.collected i := (h.tree i).concat

theorem Writes.countsRight (h : Writes s imported) (hnumbered : Numbered s)
    (hlabels : s.collected.labels.Nodup) : CountsRight imported.database := by
  have hsorted : ∀ i, (run s.collected i).Pairwise (· ≤ ·) := fun i => DiskVector.pairwise_sort _
  constructor
  · intro labelId hlabel
    have hget := congrArg (fun m => Counts.get m labelId) h.label2totalCount
    rw [LabelStat.get_finish (hsorted .labelNode) hlabel] at hget
    rw [h.index_eq, card_valuesOf]
    · exact hget
    · rw [run, (DiskVector.perm_sort _).nodup_iff]
      exact hlabels.map fun a b hab => by simp_all [Prod.ext_iff]
    · intro tuple htuple
      rw [run, (DiskVector.perm_sort _).mem_iff] at htuple
      obtain ⟨r, -, rfl⟩ := List.mem_map.mp htuple
      rfl
  · intro keyId hkey
    have hget := congrArg (fun m => Counts.get m keyId) h.key2totalCount
    rw [PropStat.get_finish_keys (hsorted .keyValueObject) hkey] at hget
    rw [h.index_eq]
    exact hget
  · intro keyId hkey
    have hget := congrArg (fun m => Counts.get m keyId) h.key2distinct
    rw [PropStat.get_finish_values (hsorted .keyValueObject) hkey] at hget
    rw [h.index_eq]
    exact hget
  · intro typeId
    have hget := congrArg (fun m => Counts.get m typeId) h.type2totalCount
    rw [get_type2totalCount hnumbered] at hget
    rw [((h.index_perm .typeFromToEdge).map _).count_eq]
    refine hget.trans ?_
    rw [recordsOf, List.map_map]
    rfl

theorem Writes.consistent (h : Writes s imported) (hnumbered : Numbered s) :
    Consistent imported.database := by
  have hcount : imported.database.catalog.connectionsCount = s.edgeCount := by
    rw [hnumbered.edgeCount]
    exact h.connectionsCount
  constructor
  · intro nodeId labelId hmem
    rw [(h.index_perm .nodeLabel).mem_iff] at hmem
    rw [(h.index_perm .labelNode).mem_iff]
    simpa [recordsOf, tuple2] using hmem
  · intro objId keyId valId hmem
    rw [(h.index_perm .objectKeyValue).mem_iff] at hmem
    rw [(h.index_perm .keyValueObject).mem_iff]
    simpa [recordsOf, tuple3] using hmem
  · intro record hrecord
    rw [(h.index_perm .labelNode).mem_iff] at hrecord
    obtain ⟨r, -, rfl⟩ := List.mem_map.mp hrecord
    rfl
  · intro record hrecord
    rw [(h.index_perm .keyValueObject).mem_iff] at hrecord
    obtain ⟨r, -, rfl⟩ := List.mem_map.mp hrecord
    rfl
  · intro i hi record hrecord
    rw [(h.index_perm i).mem_iff] at hrecord
    rw [hcount]
    have hnumber : ∀ {α : Type} {rows : List α} {id : α → Nat} {f : α → Tuple},
        NumberedUpTo s.edgeCount (rows.map id) → (∀ r, (f r).getLast? = some (id r)) →
          record ∈ rows.map f → ∃ k ≤ s.edgeCount,
            record.getLast? = some (k ||| ObjectId.maskEdge) := by
      intro α rows id f hids hlast hmem
      obtain ⟨r, hr, rfl⟩ := List.mem_map.mp hmem
      obtain ⟨k, hk, heq⟩ := hids (id r) (List.mem_map_of_mem hr)
      exact ⟨k, hk, (hlast r).trans (congrArg some heq)⟩
    simp only [edgeIndexes, List.mem_cons, List.not_mem_nil, or_false] at hi
    rcases hi with rfl | rfl | rfl | rfl | rfl | rfl | rfl | rfl | rfl | rfl | rfl
    · exact hnumber hnumbered.numberedUpTo (fun _ => rfl) hrecord
    · exact hnumber hnumbered.numberedUpTo (fun _ => rfl) hrecord
    · exact hnumber hnumbered.numberedUpTo (fun _ => rfl) hrecord
    · exact hnumber hnumbered.numberedUpTo (fun _ => rfl) hrecord
    · exact hnumber hnumbered.equalFromTo (fun _ => rfl) hrecord
    · exact hnumber hnumbered.equalFromType (fun _ => rfl) hrecord
    · exact hnumber hnumbered.equalToType (fun _ => rfl) hrecord
    · exact hnumber hnumbered.equalFromToType (fun _ => rfl) hrecord
    · exact hnumber hnumbered.equalFromTo (fun _ => rfl) hrecord
    · exact hnumber hnumbered.equalFromType (fun _ => rfl) hrecord
    · exact hnumber hnumbered.equalToType (fun _ => rfl) hrecord

end
end Import

/-- An edge gets a number of 56 bits, and a property has a value that its key does not have for
another object. -/
def InsertsNewValue (strId : Bytes → UInt64) (item : Item) (db : Database) : Prop :=
  match item.fact strId with
  | .ok (.property objId keyId valId) => ∀ other, [keyId, valId, other] ∈ db.index .keyValueObject →
    [keyId, valId, objId] ∈ db.index .keyValueObject
  | .ok (.edge _ _ _) => db.catalog.connectionsCount + 1 < 2 ^ 56
  | _ => True

section

variable {strId : Bytes → UInt64} {item : Item} {db : Database} {fact : Fact}

theorem getLast?_rowsOf (source target type n : Nat) :
    ∀ row ∈ rowsOf ((Fact.edge source target type).writes n), row.1 ∈ edgeIndexes ∧
      row.2.getLast? = some ((n + 1) ||| ObjectId.maskEdge) := by
  rw [Fact.writes, rowsOf_append, rowsOf_connectionWrites, rowsOf_equalWrites]
  split_ifs <;> simp [edgeIndexes]

theorem nodup_rowsOf_edge (source target type n : Nat) :
    (rowsOf ((Fact.edge source target type).writes n)).Nodup := by
  rw [Fact.writes, rowsOf_append, rowsOf_connectionWrites, rowsOf_equalWrites]
  split_ifs <;> simp

theorem Consistent.fresh_edge (h : Consistent db) (hn : db.catalog.connectionsCount + 1 < 2 ^ 56)
    (source target type : Nat) : Fresh (rowsOf
      ((Fact.edge source target type).writes db.catalog.connectionsCount)) db := by
  refine ⟨nodup_rowsOf_edge source target type _, ?_⟩
  intro row hrow hmem
  obtain ⟨hi, hlast⟩ := getLast?_rowsOf source target type _ row hrow
  obtain ⟨k, hk, hlast'⟩ := h.edges row.1 hi row.2 hmem
  have hnumber := edge_inj (by omega) (by omega) (Option.some.inj (hlast'.symm.trans hlast))
  omega

theorem Consistent.fresh (h : Consistent db)
    (hedge : ∀ source target type, fact = .edge source target type →
      db.catalog.connectionsCount + 1 < 2 ^ 56) :
    Fresh (rowsOf (fact.writes db.catalog.connectionsCount)) db ∨
      (∃ labelId nodeId, fact = .label labelId nodeId ∧ [labelId, nodeId] ∈ db.index .labelNode) ∨
      ∃ objId keyId valId, fact = .property objId keyId valId ∧
        [keyId, valId, objId] ∈ db.index .keyValueObject := by
  cases fact with
  | label labelId nodeId =>
    by_cases hstored : [labelId, nodeId] ∈ db.index .labelNode
    · exact .inr (.inl ⟨labelId, nodeId, rfl, hstored⟩)
    · have hnode := fun hmem => hstored (h.nodeLabel nodeId labelId hmem)
      rw [Fact.writes, rowsOf_labelWrites]
      exact .inl (by simpa [Fresh] using ⟨hstored, hnode⟩)
  | property objId keyId valId =>
    by_cases hstored : [keyId, valId, objId] ∈ db.index .keyValueObject
    · exact .inr (.inr ⟨objId, keyId, valId, rfl, hstored⟩)
    · have hobject := fun hmem => hstored (h.objectKeyValue objId keyId valId hmem)
      rw [Fact.writes, rowsOf_propertyWrites]
      exact .inl (by simpa [Fresh] using ⟨hstored, hobject⟩)
  | edge source target type => exact .inl (h.fresh_edge (hedge _ _ _ rfl) source target type)

theorem Consistent.stateAfter (h : Consistent db) (hfact : item.fact strId = .ok fact)
    (hedge : ∀ source target type, fact = .edge source target type →
      db.catalog.connectionsCount + 1 < 2 ^ 56) :
    (Fresh (rowsOf (fact.writes db.catalog.connectionsCount)) db ∧
      stateAfter (item.insert strId) db = fact.apply db) ∨
    ∃ nodeId, stateAfter (item.insert strId) db = db.addNode nodeId := by
  rcases @Item.stateAfter_insert strId item db with
    ⟨e, herror, -⟩ | ⟨fact', ws₁, ws₂, hfact', hws, hfresh, hstate, hends⟩
  · cases herror.symm.trans hfact
  · cases hfact.symm.trans hfact'
    rcases hends with rfl | ⟨i, record, rest, rfl, hrecord⟩
    · rw [List.append_nil] at hws
      rw [← hws] at hfresh hstate
      exact .inl ⟨hfresh, hstate⟩
    · refine .inr ?_
      rw [hstate]
      rcases h.fresh hedge with hall | ⟨labelId, nodeId, rfl, hstored⟩ |
        ⟨objId, keyId, valId, rfl, hstored⟩
      · -- a record that is fresh is not in its tree when its turn comes
        rw [hws, rowsOf_append, fresh_append] at hall
        · exact absurd hrecord (hall.2.2 (i, record) List.mem_cons_self)
        · intro row hrow
          apply nodes_notMem_rowsOf fact db.catalog.connectionsCount
          rw [hws, rowsOf_append]
          exact List.mem_append_right _ hrow
      · rcases @Fact.split_at_first [.node nodeId] _ _ _ _ _ _ _ rfl hws with ⟨rfl, -, -⟩ | hmem
        · exact ⟨nodeId, rfl⟩
        · exact absurd hstored (hfresh.2 _ hmem)
      · rcases @Fact.split_at_first [.node objId] _ _ _ _ _ _ _ rfl hws with ⟨rfl, -, -⟩ | hmem
        · exact ⟨objId, rfl⟩
        · exact absurd hstored (hfresh.2 _ hmem)

theorem Consistent.congr {db' : Database} (h : Consistent db)
    (hindex : ∀ i, i ≠ .nodes → db'.index i = db.index i)
    (hstats : Fact.stats db'.catalog = Fact.stats db.catalog) : Consistent db' := by
  have hcount : db'.catalog.connectionsCount = db.catalog.connectionsCount :=
    congrArg Fact.Stats.connectionsCount hstats
  constructor
  · rw [hindex .nodeLabel (by simp), hindex .labelNode (by simp)]
    exact h.nodeLabel
  · rw [hindex .objectKeyValue (by simp), hindex .keyValueObject (by simp)]
    exact h.objectKeyValue
  · rw [hindex .labelNode (by simp)]
    exact h.labelNode
  · rw [hindex .keyValueObject (by simp)]
    exact h.keyValueObject
  · intro i hi
    rw [hindex i (by rintro rfl; simp [edgeIndexes] at hi), hcount]
    exact h.edges i hi

theorem CountsRight.congr {db' : Database} (h : CountsRight db)
    (hindex : ∀ i, i ≠ .nodes → db'.index i = db.index i)
    (hstats : Fact.stats db'.catalog = Fact.stats db.catalog) : CountsRight db' := by
  simp only [Fact.stats, Fact.Stats.mk.injEq] at hstats
  obtain ⟨-, hlabels, hkeys, hvalues, htypes⟩ := hstats
  constructor
  · rw [hlabels, hindex .labelNode (by simp)]
    exact h.labels
  · rw [hkeys, hindex .keyValueObject (by simp)]
    exact h.keys
  · rw [hvalues, hindex .keyValueObject (by simp)]
    exact h.values
  · rw [htypes, hindex .typeFromToEdge (by simp)]
    exact h.types

theorem mem_index_apply {i : Index} (hi : i ≠ .nodes) {record : Tuple} :
    record ∈ (fact.apply db).index i ↔
      (i, record) ∈ rowsOf (fact.writes db.catalog.connectionsCount) ∨ record ∈ db.index i :=
  mem_index_applyWrites hi

theorem Consistent.apply (h : Consistent db) : Consistent (fact.apply db) := by
  have hcount : db.catalog.connectionsCount + fact.connections =
      (fact.apply db).catalog.connectionsCount := by
    have hstats := congrArg Fact.Stats.connectionsCount (fact.stats_apply db)
    cases fact <;> exact hstats.symm
  constructor
  · intro nodeId labelId
    rw [mem_index_apply (by simp), mem_index_apply (by simp)]
    apply Or.imp
    · cases fact with
      | label => simp [Fact.writes, rowsOf_labelWrites, and_comm]
      | property => simp [Fact.writes, rowsOf_propertyWrites]
      | edge source target type =>
        intro hrow
        have hedge := (getLast?_rowsOf source target type _ _ hrow).1
        simp [edgeIndexes] at hedge
    · exact h.nodeLabel nodeId labelId
  · intro objId keyId valId
    rw [mem_index_apply (by simp), mem_index_apply (by simp)]
    apply Or.imp
    · cases fact with
      | label => simp [Fact.writes, rowsOf_labelWrites]
      | property =>
        simp only [Fact.writes, rowsOf_propertyWrites]
        grind
      | edge source target type =>
        intro hrow
        have hedge := (getLast?_rowsOf source target type _ _ hrow).1
        simp [edgeIndexes] at hedge
    · exact h.objectKeyValue objId keyId valId
  · intro record hrecord
    rcases (mem_index_apply (by simp)).mp hrecord with hrow | hrecord
    · cases fact with
      | label => simp_all [Fact.writes, rowsOf_labelWrites]
      | property => simp [Fact.writes, rowsOf_propertyWrites] at hrow
      | edge source target type =>
        have hedge := (getLast?_rowsOf source target type _ _ hrow).1
        simp [edgeIndexes] at hedge
    · exact h.labelNode record hrecord
  · intro record hrecord
    rcases (mem_index_apply (by simp)).mp hrecord with hrow | hrecord
    · cases fact with
      | label => simp [Fact.writes, rowsOf_labelWrites] at hrow
      | property => simp_all [Fact.writes, rowsOf_propertyWrites]
      | edge source target type =>
        have hedge := (getLast?_rowsOf source target type _ _ hrow).1
        simp [edgeIndexes] at hedge
    · exact h.keyValueObject record hrecord
  · intro i hi record hrecord
    rw [← hcount]
    rcases (mem_index_apply (by rintro rfl; simp [edgeIndexes] at hi)).mp hrecord with
      hrow | hrecord
    · cases fact with
      | label =>
        simp [Fact.writes, rowsOf_labelWrites] at hrow
        rcases hrow with ⟨rfl, -⟩ | ⟨rfl, -⟩ <;> simp [edgeIndexes] at hi
      | property =>
        simp [Fact.writes, rowsOf_propertyWrites] at hrow
        rcases hrow with ⟨rfl, -⟩ | ⟨rfl, -⟩ <;> simp [edgeIndexes] at hi
      | edge source target type =>
        exact ⟨_, Nat.add_le_add_left (by simp [Fact.connections]) _,
          (getLast?_rowsOf source target type _ _ hrow).2⟩
    · obtain ⟨k, hk, hlast⟩ := h.edges i hi record hrecord
      exact ⟨k, by omega, hlast⟩

theorem index_apply_perm {i : Index} (hi : i ≠ .nodes) : ((fact.apply db).index i).Perm
    (recordsFor i (rowsOf (fact.writes db.catalog.connectionsCount)) ++ db.index i) :=
  index_applyWrites _ _ hi

theorem notMem_valuesOf {k v : Nat} {tuples : List Tuple}
    (h : ∀ tuple ∈ tuples, column 0 tuple = k → column 1 tuple ≠ v) : v ∉ valuesOf k tuples := by
  intro hmem
  rw [valuesOf, List.mem_toFinset, List.mem_map] at hmem
  obtain ⟨tuple, htuple, hvalue⟩ := hmem
  obtain ⟨htuple, hkey⟩ := List.mem_filter.mp htuple
  exact h tuple htuple (of_decide_eq_true hkey) hvalue

theorem card_valuesOf_cons {k k' v : Nat} {rest : Tuple} {tuples : List Tuple}
    (h : v ∉ valuesOf k tuples) : (valuesOf k' ((k :: v :: rest) :: tuples)).card =
      (valuesOf k' tuples).card + if k' = k then 1 else 0 := by
  rw [valuesOf_cons]
  by_cases hk : k' = k
  · rw [hk, if_pos (by rfl), if_pos rfl]
    exact Finset.card_insert_of_notMem h
  · rw [if_neg (by exact fun heq => hk heq.symm), if_neg hk, Nat.add_zero]

theorem count_column_cons {k k' : Nat} {rest : Tuple} {tuples : List Tuple} :
    (((k :: rest) :: tuples).map (column 0)).count k' =
      (tuples.map (column 0)).count k' + if k' = k then 1 else 0 := by
  rw [List.map_cons, List.count_cons]
  have hcolumn : column 0 (k :: rest) = k := rfl
  rw [hcolumn]
  congr 1
  exact if_congr (beq_iff_eq.trans eq_comm) rfl rfl

theorem CountsRight.apply (h : CountsRight db) (hc : Consistent db)
    (hfresh : Fresh (rowsOf (fact.writes db.catalog.connectionsCount)) db)
    (hnew : ∀ objId keyId valId, fact = .property objId keyId valId →
      ∀ other, [keyId, valId, other] ∉ db.index .keyValueObject) :
    CountsRight (fact.apply db) := by
  have hstats := fact.stats_apply db
  cases fact with
  | label labelId nodeId =>
    simp only [Fact.stats, Fact.count, Fact.Stats.mk.injEq] at hstats
    obtain ⟨-, hlabels, hkeys, hvalues, htypes⟩ := hstats
    have hnode : nodeId ∉ valuesOf labelId (db.index .labelNode) := by
      apply notMem_valuesOf
      intro tuple htuple hlabel hnode
      obtain ⟨a, b, rfl⟩ := List.length_eq_two.mp (hc.labelNode tuple htuple)
      obtain rfl : a = labelId := hlabel
      obtain rfl : b = nodeId := hnode
      exact hfresh.2 _ List.mem_cons_self htuple
    constructor
    · intro labelId' hlabel'
      rw [hlabels, Counts.get_bump, h.labels labelId' hlabel',
        valuesOf_perm (index_apply_perm (i := .labelNode) (by simp))]
      exact (card_valuesOf_cons hnode).symm
    · rw [hkeys]
      intro keyId hkey
      rw [((index_apply_perm (i := .keyValueObject) (by simp)).map _).count_eq]
      exact h.keys keyId hkey
    · rw [hvalues]
      intro keyId hkey
      rw [valuesOf_perm (index_apply_perm (i := .keyValueObject) (by simp))]
      exact h.values keyId hkey
    · rw [htypes]
      intro typeId
      rw [((index_apply_perm (i := .typeFromToEdge) (by simp)).map _).count_eq]
      exact h.types typeId
  | property objId keyId valId =>
    simp only [Fact.stats, Fact.count, Fact.Stats.mk.injEq] at hstats
    obtain ⟨-, hlabels, hkeys, hvalues, htypes⟩ := hstats
    have hvalue : valId ∉ valuesOf keyId (db.index .keyValueObject) := by
      apply notMem_valuesOf
      intro tuple htuple hkey hvalue
      obtain ⟨a, b, c, rfl⟩ := List.length_eq_three.mp (hc.keyValueObject tuple htuple)
      obtain rfl : a = keyId := hkey
      obtain rfl : b = valId := hvalue
      exact hnew objId a b rfl c htuple
    constructor
    · rw [hlabels]
      intro labelId hlabel
      rw [valuesOf_perm (index_apply_perm (i := .labelNode) (by simp))]
      exact h.labels labelId hlabel
    · intro keyId' hkey'
      rw [hkeys, Counts.get_bump, h.keys keyId' hkey',
        ((index_apply_perm (i := .keyValueObject) (by simp)).map _).count_eq]
      exact count_column_cons.symm
    · intro keyId' hkey'
      rw [hvalues, Counts.get_bump, h.values keyId' hkey',
        valuesOf_perm (index_apply_perm (i := .keyValueObject) (by simp))]
      exact (card_valuesOf_cons hvalue).symm
    · rw [htypes]
      intro typeId
      rw [((index_apply_perm (i := .typeFromToEdge) (by simp)).map _).count_eq]
      exact h.types typeId
  | edge source target type =>
    simp only [Fact.stats, Fact.count, Fact.Stats.mk.injEq] at hstats
    obtain ⟨-, hlabels, hkeys, hvalues, htypes⟩ := hstats
    have hrecords : ∀ i ∉ edgeIndexes, recordsFor i
        (rowsOf ((Fact.edge source target type).writes db.catalog.connectionsCount)) = [] := by
      intro i hi
      rw [recordsFor, List.filterMap_eq_nil_iff]
      intro row hrow
      have hedge := (getLast?_rowsOf source target type _ row hrow).1
      apply if_neg
      intro heq
      rw [heq] at hedge
      exact hi hedge
    have htype : recordsFor .typeFromToEdge
        (rowsOf ((Fact.edge source target type).writes db.catalog.connectionsCount)) =
          [[type, source, target, (db.catalog.connectionsCount + 1) ||| ObjectId.maskEdge]] := by
      rw [Fact.writes, rowsOf_append, rowsOf_connectionWrites, rowsOf_equalWrites]
      split_ifs <;> simp [recordsFor]
    constructor
    · rw [hlabels]
      intro labelId hlabel
      rw [valuesOf_perm (index_apply_perm (i := .labelNode) (by simp)),
        hrecords .labelNode (by simp [edgeIndexes]), List.nil_append]
      exact h.labels labelId hlabel
    · rw [hkeys]
      intro keyId hkey
      rw [((index_apply_perm (i := .keyValueObject) (by simp)).map _).count_eq,
        hrecords .keyValueObject (by simp [edgeIndexes]), List.nil_append]
      exact h.keys keyId hkey
    · rw [hvalues]
      intro keyId hkey
      rw [valuesOf_perm (index_apply_perm (i := .keyValueObject) (by simp)),
        hrecords .keyValueObject (by simp [edgeIndexes]), List.nil_append]
      exact h.values keyId hkey
    · intro typeId
      rw [htypes, Counts.get_bump, h.types typeId,
        ((index_apply_perm (i := .typeFromToEdge) (by simp)).map _).count_eq, htype]
      exact count_column_cons.symm

theorem countsRight_insert (item : Item) (db : Database) (h : Consistent db ∧ CountsRight db)
    (hitem : InsertsNewValue strId item db) :
    Consistent (MillenniumDB.stateAfter (item.insert strId) db) ∧
      CountsRight (MillenniumDB.stateAfter (item.insert strId) db) := by
  obtain ⟨hc, hcounts⟩ := h
  cases hfact : item.fact strId with
  | error e =>
    have hstate : MillenniumDB.stateAfter (item.insert strId) db = db := by
      rw [MillenniumDB.stateAfter, item.insert_eq, hfact]
    rw [hstate]
    exact ⟨hc, hcounts⟩
  | ok fact =>
    rw [InsertsNewValue, hfact] at hitem
    have hedge : ∀ source target type, fact = .edge source target type →
        db.catalog.connectionsCount + 1 < 2 ^ 56 := by
      rintro source target type rfl
      exact hitem
    rcases hc.stateAfter hfact hedge with ⟨hfresh, hstate⟩ | ⟨nodeId, hstate⟩
    · rw [hstate]
      refine ⟨hc.apply, hcounts.apply hc hfresh ?_⟩
      rintro objId keyId valId rfl other hother
      exact hfresh.2 _ List.mem_cons_self (hitem other hother)
    · rw [hstate]
      have hindex : ∀ i, i ≠ .nodes → (db.addNode nodeId).index i = db.index i :=
        fun i hi => Write.index_addNode hi
      exact ⟨hc.congr hindex (Fact.stats_addNode nodeId db),
        hcounts.congr hindex (Fact.stats_addNode nodeId db)⟩

end

/-- The property `k` of an object, with the value true. -/
def oneProperty (object : UInt8) : OpInsert where
  labels := []
  properties := [⟨.namedNode [object], [107], .bool true⟩]
  edges := []

end MillenniumDB
