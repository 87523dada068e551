import MillenniumDB.CatalogFile

/-!
# What planning does to the catalog

The estimates of `PropertyPlan` and `LabelPlan` look a key up with `operator[]`, which enters a
key that the map does not have.  Only an insert of a label or of a property brings the distinct
counter up to the size of the map again.
-/

namespace MillenniumDB

open Exec
open Import (column)

/-- `operator[]`: the count of the key, and the map with the key. -/
def Counts.touch (k : Nat) (m : Counts Nat) : Nat × Counts Nat := (m.get k, m.insertNew k 0)

structure PropertyPlan where
  object : Id
  key : Id
  value : Id
  objectAssigned : Bool
  keyAssigned : Bool
  valueAssigned : Bool

structure LabelPlan where
  node : Id
  label : Id
  nodeAssigned : Bool
  labelAssigned : Bool

/-- `PropertyPlan::estimate_output_size`; exact numbers stand for the doubles. -/
def PropertyPlan.estimateOutputSize (plan : PropertyPlan) (c : QuadCatalog) : ℚ × QuadCatalog :=
  let totalObjects := c.identifiableNodesCount + c.anonymousNodesCount + c.connectionsCount
  if totalObjects = 0 then (0, c)
  else if plan.keyAssigned then
    match plan.key with
    | .object key =>
      let (distinctValues, key2distinct) := c.key2distinct.touch key
      let (keyCount, key2totalCount) := c.key2totalCount.touch key
      let c := { c with key2distinct, key2totalCount }
      if distinctValues = 0 then (0, c)
      else if plan.valueAssigned then
        if plan.objectAssigned then ((keyCount : ℚ) / (distinctValues * totalObjects), c)
        else ((keyCount : ℚ) / distinctValues, c)
      else if plan.objectAssigned then ((keyCount : ℚ) / totalObjects, c)
      else (keyCount, c)
    | .var _ => (0, c)
  else if plan.objectAssigned then ((c.propertiesCount : ℚ) / totalObjects, c)
  else (c.propertiesCount, c)

def LabelPlan.estimateOutputSize (plan : LabelPlan) (c : QuadCatalog) : ℚ × QuadCatalog :=
  let totalNodes := c.identifiableNodesCount + c.anonymousNodesCount
  if totalNodes = 0 then (0, c)
  else if plan.labelAssigned then
    match plan.label with
    | .object label =>
      let (labelCount, label2totalCount) := c.label2totalCount.touch label
      let c := { c with label2totalCount }
      if plan.nodeAssigned then ((labelCount : ℚ) / totalNodes, c) else (labelCount, c)
    | .var _ => (0, c)
  else if plan.nodeAssigned then ((c.labelCount : ℚ) / totalNodes, c)
  else (totalNodes, c)

/-- The estimate looks up a key that the catalog does not have, in a database with objects. -/
def PropertyPlan.Misses (plan : PropertyPlan) (c : QuadCatalog) : Prop :=
  c.identifiableNodesCount + c.anonymousNodesCount + c.connectionsCount ≠ 0 ∧
    plan.keyAssigned ∧ ∃ key, plan.key = .object key ∧ key ∉ c.key2totalCount

/-- The estimate looks up a label that the catalog does not have, in a database with nodes. -/
def LabelPlan.Misses (plan : LabelPlan) (c : QuadCatalog) : Prop :=
  c.identifiableNodesCount + c.anonymousNodesCount ≠ 0 ∧
    plan.labelAssigned ∧ ∃ label, plan.label = .object label ∧ label ∉ c.label2totalCount

/-- What happens to the catalog between start and shutdown: estimates, as the planner asks for
them, and INSERT queries. -/
inductive SessionOp
  | property (plan : PropertyPlan)
  | label (plan : LabelPlan)
  | insert (opInsert : OpInsert)

section

variable (strId : Bytes → UInt64)

def SessionOp.run : SessionOp → Database → Database
  | property plan, db => { db with catalog := (plan.estimateOutputSize db.catalog).2 }
  | label plan, db => { db with catalog := (plan.estimateOutputSize db.catalog).2 }
  | insert opInsert, db => afterQuery strId db opInsert

/-- A label was missed, and no label has been inserted since; `counted` is the number of label
records. -/
def labelMissed : List SessionOp → Database → Prop → Prop
  | [], _, missed => missed
  | op :: ops, db, missed =>
    let db' := op.run strId db
    labelMissed ops db' (match op with
      | .label plan => missed ∨ plan.Misses db.catalog
      | .property _ => missed
      | .insert _ => missed ∧ db'.catalog.labelCount = db.catalog.labelCount)

def keyMissed : List SessionOp → Database → Prop → Prop
  | [], _, missed => missed
  | op :: ops, db, missed =>
    let db' := op.run strId db
    keyMissed ops db' (match op with
      | .property plan => missed ∨ plan.Misses db.catalog
      | .label _ => missed
      | .insert _ => missed ∧ db'.catalog.propertiesCount = db.catalog.propertiesCount)

def session (db : Database) (ops : List SessionOp) : Database :=
  ops.foldl (fun db op => op.run strId db) db

end

def labelPart (c : QuadCatalog) : Nat × Nat × Counts Nat :=
  (c.labelCount, c.distinctLabels, c.label2totalCount)

def keyPart (c : QuadCatalog) : Nat × Nat × Counts Nat × Counts Nat :=
  (c.propertiesCount, c.distinctKeys, c.key2totalCount, c.key2distinct)

def typePart (c : QuadCatalog) : Nat × Counts Nat := (c.distinctType, c.type2totalCount)

section

variable {strId : Bytes → UInt64} {db db' : Database} {l ws₁ rest : List Write} {i : Index}
  {record : Tuple}

theorem mem_take_of_row {p : Nat} (h : l = ws₁ ++ .row i record :: rest)
    (hp : ∀ w ∈ l.drop p, w.target = none) : ∀ w ∈ ws₁, w ∈ l.take p := by
  have hlt : ws₁.length < p := by
    by_contra hle
    have hmem : Write.row i record ∈ l.drop p := by
      rw [h, List.drop_append_of_le_length (by omega)]
      exact List.mem_append_right _ List.mem_cons_self
    exact absurd (hp _ hmem) (by simp [Write.target])
  intro w hw
  rw [h, List.take_append]
  rw [List.take_of_length_le (by omega)]
  exact List.mem_append_left _ hw

theorem Fact.keeps_label {fact : Fact} (hfact : ∀ labelId nodeId, fact ≠ .label labelId nodeId)
    (n : Nat) : ∀ w ∈ fact.writes n, w.Keeps labelPart := by
  cases fact with
  | label labelId nodeId => exact absurd rfl (hfact labelId nodeId)
  | property objId keyId valId => simp [Fact.writes, propertyWrites, Write.Keeps, labelPart]
  | edge source target type =>
    refine List.forall_mem_append.mpr ⟨by simp [connectionWrites, Write.Keeps, labelPart], ?_⟩
    exact keeps_equalWrites (fun _ => rfl) _ _ _ _

theorem Fact.keeps_key {fact : Fact} (hfact : ∀ objId keyId valId,
    fact ≠ .property objId keyId valId) (n : Nat) : ∀ w ∈ fact.writes n, w.Keeps keyPart := by
  cases fact with
  | property objId keyId valId => exact absurd rfl (hfact objId keyId valId)
  | label labelId nodeId => simp [Fact.writes, labelWrites, Write.Keeps, keyPart]
  | edge source target type =>
    refine List.forall_mem_append.mpr ⟨by simp [connectionWrites, Write.Keeps, keyPart], ?_⟩
    exact keeps_equalWrites (fun _ => rfl) _ _ _ _

theorem keeps_type_equalWrites (source target type edgeId : Nat) :
    ∀ w ∈ equalWrites source target type edgeId, w.Keeps typePart :=
  keeps_equalWrites (fun _ => rfl) source target type edgeId

theorem part_addNode {α : Type} {g : QuadCatalog → α} (hg : ∀ c identifiable anonymous, g { c with
      identifiableNodesCount := identifiable
      anonymousNodesCount := anonymous } = g c) (nodeId : Nat) (db : Database) :
    g (db.addNode nodeId).catalog = g db.catalog :=
  Write.Keeps.apply (w := .node nodeId) hg

theorem labelPart_item (item : Item) (db : Database) :
    labelPart (stateAfter (item.insert strId) db).catalog = labelPart db.catalog ∨
      (stateAfter (item.insert strId) db).catalog.labelCount = db.catalog.labelCount + 1 ∧
        (stateAfter (item.insert strId) db).catalog.distinctLabels =
          (stateAfter (item.insert strId) db).catalog.label2totalCount.size := by
  rcases @Item.stateAfter_insert strId item db with
    ⟨e, -, heq⟩ | ⟨fact, ws₁, ws₂, -, hwrites, -, heq, hend⟩
  · exact .inl (by rw [heq])
  · rw [heq]
    by_cases hlabel : ∃ labelId nodeId, fact = .label labelId nodeId
    · obtain ⟨labelId, nodeId, rfl⟩ := hlabel
      rcases hend with rfl | ⟨i, record, rest, rfl, -⟩
      · rw [List.append_nil] at hwrites
        rw [← hwrites]
        have hnode := part_addNode (g := labelPart) (fun _ _ _ => rfl) nodeId db
        right
        refine ⟨?_, rfl⟩
        exact congrArg (fun p : Nat × Nat × Counts Nat => p.1 + 1) hnode
      · left
        have hkeeps : ∀ w ∈ (labelWrites labelId nodeId).take 3, w.Keeps labelPart := by
          simp [labelWrites, Write.Keeps, labelPart]
        exact keeps_applyWrites fun w hw => hkeeps w (mem_take_of_row (p := 3) hwrites
          (by simp [Fact.writes, labelWrites, Write.target]) w hw)
    · left
      apply keeps_applyWrites
      intro w hw
      refine Fact.keeps_label (fun labelId nodeId h => hlabel ⟨labelId, nodeId, h⟩)
        db.catalog.connectionsCount w ?_
      rw [hwrites]
      exact List.mem_append_left _ hw

theorem keyPart_item (item : Item) (db : Database) :
    keyPart (stateAfter (item.insert strId) db).catalog = keyPart db.catalog ∨
      ∃ keyId, keyPart (stateAfter (item.insert strId) db).catalog =
        (db.catalog.propertiesCount + 1, (db.catalog.key2totalCount.bump keyId).size,
          db.catalog.key2totalCount.bump keyId, db.catalog.key2distinct.bump keyId) := by
  rcases @Item.stateAfter_insert strId item db with
    ⟨e, -, heq⟩ | ⟨fact, ws₁, ws₂, -, hwrites, -, heq, hend⟩
  · exact .inl (by rw [heq])
  · rw [heq]
    by_cases hproperty : ∃ objId keyId valId, fact = .property objId keyId valId
    · obtain ⟨objId, keyId, valId, rfl⟩ := hproperty
      rcases hend with rfl | ⟨i, record, rest, rfl, -⟩
      · rw [List.append_nil] at hwrites
        rw [← hwrites]
        let db' := applyWrites ((propertyWrites objId keyId valId).take 5) db
        have hpart : keyPart db'.catalog = (db.catalog.propertiesCount + 1,
            db.catalog.distinctKeys, db.catalog.key2totalCount.bump keyId,
            db.catalog.key2distinct) :=
          congrArg (fun p : Nat × Nat × Counts Nat × Counts Nat =>
            (p.1 + 1, p.2.1, p.2.2.1.bump keyId, p.2.2.2))
            (part_addNode (g := keyPart) (fun _ _ _ => rfl) objId db)
        have happly : applyWrites (propertyWrites objId keyId valId) db =
            applyWrites ((propertyWrites objId keyId valId).drop 6) { db' with
              catalog := { db'.catalog with
                key2distinct := db'.catalog.key2distinct.bump keyId } } :=
          applyWrites_propertyWrites objId keyId valId db
        right
        refine ⟨keyId, ?_⟩
        rw [Fact.writes, happly]
        exact congrArg (fun p : Nat × Nat × Counts Nat × Counts Nat =>
          (p.1, p.2.2.1.size, p.2.2.1, p.2.2.2.bump keyId)) hpart
      · left
        have hkeeps : ∀ w ∈ (propertyWrites objId keyId valId).take 3, w.Keeps keyPart := by
          simp [propertyWrites, Write.Keeps, keyPart]
        exact keeps_applyWrites fun w hw => hkeeps w (mem_take_of_row (p := 3) hwrites
          (by simp [Fact.writes, propertyWrites, Write.target]) w hw)
    · left
      apply keeps_applyWrites
      intro w hw
      refine Fact.keeps_key (fun objId keyId valId h => hproperty ⟨objId, keyId, valId, h⟩)
        db.catalog.connectionsCount w ?_
      rw [hwrites]
      exact List.mem_append_left _ hw

theorem typePart_item (item : Item) (db : Database)
    (h : db.catalog.distinctType = db.catalog.type2totalCount.size) :
    (stateAfter (item.insert strId) db).catalog.distinctType =
      (stateAfter (item.insert strId) db).catalog.type2totalCount.size := by
  have hkeep : ∀ {ws : List Write} {db : Database}, (∀ w ∈ ws, w.Keeps typePart) →
      db.catalog.distinctType = db.catalog.type2totalCount.size →
      (applyWrites ws db).catalog.distinctType =
        (applyWrites ws db).catalog.type2totalCount.size := by
    intro ws db hws h
    have heq := @keeps_applyWrites _ db _ _ hws
    have hfst := congrArg Prod.fst heq
    have hsnd := congrArg Prod.snd heq
    simp only [typePart] at hfst hsnd
    rw [hfst, hsnd, h]
  rcases @Item.stateAfter_insert strId item db with
    ⟨e, -, heq⟩ | ⟨fact, ws₁, ws₂, -, hwrites, -, heq, hend⟩
  · rw [heq, h]
  · rw [heq]
    have hmem : ∀ w ∈ ws₁, w ∈ fact.writes db.catalog.connectionsCount := by
      intro w hw
      rw [hwrites]
      exact List.mem_append_left _ hw
    cases fact with
    | label labelId nodeId =>
      have hkeeps : ∀ w ∈ labelWrites labelId nodeId, w.Keeps typePart := by
        simp [labelWrites, Write.Keeps, typePart]
      exact hkeep (fun w hw => hkeeps w (hmem w hw)) h
    | property objId keyId valId =>
      have hkeeps : ∀ w ∈ propertyWrites objId keyId valId, w.Keeps typePart := by
        simp [propertyWrites, Write.Keeps, typePart]
      exact hkeep (fun w hw => hkeeps w (hmem w hw)) h
    | edge source target type =>
      simp only [Fact.writes] at hwrites
      generalize hedge : db.catalog.connectionsCount + 1 ||| ObjectId.maskEdge = edgeId at hwrites
      rcases List.append_eq_append_iff.mp hwrites with ⟨ws, hws₁, hws⟩ | ⟨ws, hws₁, hws⟩
      · -- all statements for the connection were run
        rw [hws₁, applyWrites_append]
        refine hkeep (fun w hw => keeps_type_equalWrites source target type edgeId w ?_) rfl
        rw [hws]
        exact List.mem_append_left _ hw
      · cases ws with
        | nil =>
          rw [List.append_nil] at hws₁
          rw [← hws₁]
          rfl
        | cons w ws =>
          rcases hend with rfl | ⟨i, record, rest, rfl, -⟩
          · exact absurd hws (by simp)
          · obtain ⟨rfl, -⟩ := List.cons.inj hws
            have hkeeps : ∀ w ∈ (connectionWrites source target type edgeId).take 8,
                w.Keeps typePart := by
              simp [connectionWrites, Write.Keeps, typePart]
            exact hkeep (fun w hw => hkeeps w (mem_take_of_row (p := 8) hws₁
              (by simp [connectionWrites, Write.target]) w hw)) h

theorem labelPart_query (opInsert : OpInsert) (db : Database) :
    labelPart (afterQuery strId db opInsert).catalog = labelPart db.catalog ∨
      db.catalog.labelCount < (afterQuery strId db opInsert).catalog.labelCount ∧
        (afterQuery strId db opInsert).catalog.distinctLabels =
          (afterQuery strId db opInsert).catalog.label2totalCount.size := by
  apply keeps_afterQuery (C := fun _ _ => True) (P := fun db' =>
    labelPart db'.catalog = labelPart db.catalog ∨
      db.catalog.labelCount < db'.catalog.labelCount ∧
        db'.catalog.distinctLabels = db'.catalog.label2totalCount.size)
  · intro item db' hP _
    have hcount : ∀ {c c' : QuadCatalog}, labelPart c = labelPart c' →
        c.labelCount = c'.labelCount ∧ c.distinctLabels = c'.distinctLabels ∧
          c.label2totalCount = c'.label2totalCount := fun h => by simpa [labelPart] using h
    rcases @labelPart_item strId item db' with hsame | ⟨hlt, hright⟩
    · obtain ⟨h1, h2, h3⟩ := hcount hsame
      rcases hP with hP | ⟨hlt, hright⟩
      · exact .inl (hsame.trans hP)
      · exact .inr ⟨by omega, by rw [h2, h3, hright]⟩
    · right
      refine ⟨?_, hright⟩
      rcases hP with hP | ⟨hlt', -⟩
      · have := (hcount hP).1
        omega
      · omega
  · exact .inl rfl
  · exact fun _ _ _ => trivial

def SameKeys (c : QuadCatalog) : Prop := ∀ k, k ∈ c.key2totalCount ↔ k ∈ c.key2distinct

theorem Counts.mem_bump {m : Counts Nat} {k l : Nat} : l ∈ m.bump k ↔ l = k ∨ l ∈ m :=
  AList.mem_insert m

theorem keyPart_query (opInsert : OpInsert) (db : Database) (h : SameKeys db.catalog) :
    SameKeys (afterQuery strId db opInsert).catalog ∧
    (keyPart (afterQuery strId db opInsert).catalog = keyPart db.catalog ∨
      db.catalog.propertiesCount < (afterQuery strId db opInsert).catalog.propertiesCount ∧
        (afterQuery strId db opInsert).catalog.distinctKeys =
          (afterQuery strId db opInsert).catalog.key2totalCount.size) := by
  apply keeps_afterQuery (C := fun _ _ => True) (P := fun db' => SameKeys db'.catalog ∧
    (keyPart db'.catalog = keyPart db.catalog ∨
      db.catalog.propertiesCount < db'.catalog.propertiesCount ∧
        db'.catalog.distinctKeys = db'.catalog.key2totalCount.size))
  · intro item db' hP _
    have hcount : ∀ {c : QuadCatalog} {p}, keyPart c = p →
        c.propertiesCount = p.1 ∧ c.distinctKeys = p.2.1 ∧ c.key2totalCount = p.2.2.1 ∧
          c.key2distinct = p.2.2.2 := fun h => by simp [← h, keyPart]
    obtain ⟨hkeys, hP⟩ := hP
    rcases @keyPart_item strId item db' with hsame | ⟨keyId, hnew⟩
    · obtain ⟨h1, h2, h3, h4⟩ := hcount hsame
      simp only [keyPart] at h1 h2 h3 h4
      refine ⟨fun k => by rw [h3, h4]; exact hkeys k, ?_⟩
      rcases hP with hP | ⟨hlt, hright⟩
      · exact .inl (hsame.trans hP)
      · exact .inr ⟨by omega, by rw [h2, h3, hright]⟩
    · obtain ⟨h1, h2, h3, h4⟩ := hcount hnew
      simp only at h1 h2 h3 h4
      refine ⟨fun k => ?_, .inr ⟨?_, by rw [h2, h3]⟩⟩
      · rw [h3, h4, Counts.mem_bump, Counts.mem_bump, hkeys k]
      · rcases hP with hP | ⟨hlt, -⟩
        · have := (hcount hP).1
          simp only [keyPart] at this
          omega
        · omega
  · exact ⟨h, .inl rfl⟩
  · exact fun _ _ _ => trivial

theorem typePart_query (opInsert : OpInsert) (db : Database)
    (h : db.catalog.distinctType = db.catalog.type2totalCount.size) :
    (afterQuery strId db opInsert).catalog.distinctType =
      (afterQuery strId db opInsert).catalog.type2totalCount.size :=
  keeps_afterQuery (C := fun _ _ => True)
    (P := fun db' => db'.catalog.distinctType = db'.catalog.type2totalCount.size)
    (fun item db' hP _ => typePart_item item db' hP) opInsert h fun _ _ _ => trivial

theorem LabelPlan.estimateOutputSize_snd (plan : LabelPlan) (c : QuadCatalog) :
    (plan.estimateOutputSize c).2 = c ∧ ¬plan.Misses c ∨
      ∃ label, (plan.estimateOutputSize c).2 =
          { c with label2totalCount := c.label2totalCount.insertNew label 0 } ∧
        (plan.Misses c ↔ label ∉ c.label2totalCount) := by
  unfold LabelPlan.estimateOutputSize LabelPlan.Misses
  dsimp only
  by_cases hnodes : c.identifiableNodesCount + c.anonymousNodesCount = 0
  · rw [if_pos hnodes]
    exact .inl ⟨rfl, fun h => h.1 hnodes⟩
  rw [if_neg hnodes]
  by_cases hassigned : plan.labelAssigned
  · rw [if_pos hassigned]
    cases hlabel : plan.label with
    | var v => exact .inl ⟨rfl, by simp⟩
    | object label =>
      refine .inr ⟨label, by dsimp only; split <;> rfl, fun h => ?_, fun h => ?_⟩
      · obtain ⟨-, -, label', heq, hlabel'⟩ := h
        cases heq
        exact hlabel'
      · exact ⟨hnodes, hassigned, label, rfl, h⟩
  · rw [if_neg hassigned]
    exact .inl ⟨by split <;> rfl, fun h => hassigned h.2.1⟩

theorem PropertyPlan.estimateOutputSize_snd (plan : PropertyPlan) (c : QuadCatalog) :
    (plan.estimateOutputSize c).2 = c ∧ ¬plan.Misses c ∨
      ∃ key, (plan.estimateOutputSize c).2 =
          { c with
            key2totalCount := c.key2totalCount.insertNew key 0
            key2distinct := c.key2distinct.insertNew key 0 } ∧
        (plan.Misses c ↔ key ∉ c.key2totalCount) := by
  unfold PropertyPlan.estimateOutputSize PropertyPlan.Misses
  dsimp only
  by_cases hobjects :
      c.identifiableNodesCount + c.anonymousNodesCount + c.connectionsCount = 0
  · rw [if_pos hobjects]
    exact .inl ⟨rfl, fun h => h.1 hobjects⟩
  rw [if_neg hobjects]
  by_cases hassigned : plan.keyAssigned
  · rw [if_pos hassigned]
    cases hkey : plan.key with
    | var v => exact .inl ⟨rfl, by simp⟩
    | object key =>
      refine .inr ⟨key, ?_, fun h => ?_, fun h => ?_⟩
      · dsimp only
        split
        · rfl
        · split <;> split <;> rfl
      · obtain ⟨-, -, key', heq, hkey'⟩ := h
        cases heq
        exact hkey'
      · exact ⟨hobjects, hassigned, key, rfl, h⟩
  · rw [if_neg hassigned]
    exact .inl ⟨by split <;> rfl, fun h => hassigned h.2.1⟩

/-- How the sizes stand to the counters when labels or keys were missed. -/
structure Follows (c : QuadCatalog) (label key : Prop) : Prop where
  labels : ¬label → c.distinctLabels = c.label2totalCount.size
  label_lt : label → c.distinctLabels < c.label2totalCount.size
  types : c.distinctType = c.type2totalCount.size
  keys : ¬key → c.distinctKeys = c.key2totalCount.size
  key_lt : key → c.distinctKeys < c.key2totalCount.size
  sameKeys : SameKeys c

theorem SameKeys.size {c : QuadCatalog} (h : SameKeys c) :
    c.key2totalCount.size = c.key2distinct.size := by
  refine ((List.perm_ext_iff_of_nodup c.key2totalCount.keys_nodup
    c.key2distinct.keys_nodup).mpr fun k => ?_).length_eq
  rw [← AList.mem_keys, ← AList.mem_keys]
  exact h k

theorem Follows.session {label key : Prop} (ops : List SessionOp)
    (h : Follows db.catalog label key) :
    Follows (session strId db ops).catalog (labelMissed strId ops db label)
      (keyMissed strId ops db key) := by
  induction ops generalizing db label key with
  | nil => exact h
  | cons op ops ih =>
    apply ih
    cases op with
    | label plan =>
      dsimp only [SessionOp.run]
      rcases plan.estimateOutputSize_snd db.catalog with ⟨heq, hno⟩ | ⟨l, heq, hmiss⟩
      · rw [heq]
        simpa [hno] using h
      · rw [heq]
        refine ⟨fun hno => ?_, fun hyes => ?_, h.types, h.keys, h.key_lt, h.sameKeys⟩
        · rw [not_or, hmiss, not_not] at hno
          simp only [Counts.size_insertNew, if_pos hno.2]
          exact h.labels hno.1
        · simp only [Counts.size_insertNew]
          by_cases hmem : l ∈ db.catalog.label2totalCount
          · rw [if_pos hmem]
            exact h.label_lt (hyes.resolve_right fun hm => hmiss.mp hm hmem)
          · rw [if_neg hmem]
            by_cases hlabel : label
            · have := h.label_lt hlabel
              omega
            · have := h.labels hlabel
              omega
    | property plan =>
      dsimp only [SessionOp.run]
      rcases plan.estimateOutputSize_snd db.catalog with ⟨heq, hno⟩ | ⟨l, heq, hmiss⟩
      · rw [heq]
        simpa [hno] using h
      · rw [heq]
        refine ⟨h.labels, h.label_lt, h.types, fun hno => ?_, fun hyes => ?_, fun k => ?_⟩
        · rw [not_or, hmiss, not_not] at hno
          simp only [Counts.size_insertNew, if_pos hno.2]
          exact h.keys hno.1
        · simp only [Counts.size_insertNew]
          by_cases hmem : l ∈ db.catalog.key2totalCount
          · rw [if_pos hmem]
            exact h.key_lt (hyes.resolve_right fun hm => hmiss.mp hm hmem)
          · rw [if_neg hmem]
            by_cases hkey : key
            · have := h.key_lt hkey
              omega
            · have := h.keys hkey
              omega
        · simp only [Counts.mem_insertNew, h.sameKeys k]
    | insert opInsert =>
      dsimp only [SessionOp.run]
      have hlabel := @labelPart_query strId opInsert db
      obtain ⟨hsame, hkey⟩ := @keyPart_query strId opInsert db h.sameKeys
      generalize hdb : afterQuery strId db opInsert = db' at hlabel hsame hkey
      have htypes := @typePart_query strId opInsert db h.types
      rw [hdb] at htypes
      refine ⟨fun hno => ?_, fun hyes => ?_, htypes, fun hno => ?_, fun hyes => ?_, hsame⟩
      · rcases hlabel with heq | ⟨-, hright⟩
        · simp only [labelPart, Prod.mk.injEq] at heq
          rw [heq.2.1, heq.2.2]
          exact h.labels fun hl => hno ⟨hl, heq.1⟩
        · exact hright
      · rcases hlabel with heq | ⟨hlt, -⟩
        · simp only [labelPart, Prod.mk.injEq] at heq
          rw [heq.2.1, heq.2.2]
          exact h.label_lt hyes.1
        · have := hyes.2
          omega
      · rcases hkey with heq | ⟨-, hright⟩
        · simp only [keyPart, Prod.mk.injEq] at heq
          rw [heq.2.1, heq.2.2.1]
          exact h.keys fun hk => hno ⟨hk, heq.1⟩
        · exact hright
      · rcases hkey with heq | ⟨hlt, -⟩
        · simp only [keyPart, Prod.mk.injEq] at heq
          rw [heq.2.1, heq.2.2.1]
          exact h.key_lt hyes.1
        · have := hyes.2
          omega

end

def oneNode : Database := Database.empty.addNode 1

def planLabel : LabelPlan := ⟨.var 0, .object 7, false, true⟩

theorem fits_oneNode : (session (fun _ => 0) oneNode [.label planLabel]).catalog.Fits :=
  ⟨by decide, by decide⟩

end MillenniumDB
