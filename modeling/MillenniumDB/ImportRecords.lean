import MillenniumDB.EdgeTable
import MillenniumDB.WrongLines
import Mathlib.Data.List.Nodup

/-!
# The records of a file

A function of a transition appends at most one record: a node, a label, a property or an edge.
Nothing looks whether the collection holds it already; only the id of an edge is new each time.
-/

namespace MillenniumDB
namespace Import

open OnDiskImport (pushEdge)

inductive Record
  | node (nodeId : Nat)
  | label (nodeId labelId : Nat)
  | property (objectId keyId valueId : Nat)
  | edge (id1 id2 typeId edgeId : Nat) (direction : Bool)

namespace Record

def push : Record → Collections → Collections
  | node nodeId, c => { c with declaredNodes := c.declaredNodes ++ [nodeId] }
  | label nodeId labelId, c => { c with labels := c.labels ++ [(nodeId, labelId)] }
  | property objectId keyId valueId, c =>
    { c with properties := c.properties ++ [(objectId, keyId, valueId)] }
  | edge id1 id2 typeId edgeId direction, c => pushEdge id1 id2 typeId edgeId direction c

def NewIn (c : Collections) : Record → Prop
  | node nodeId => nodeId ∉ c.declaredNodes
  | label nodeId labelId => (nodeId, labelId) ∉ c.labels
  | property objectId keyId valueId => (objectId, keyId, valueId) ∉ c.properties
  | edge id1 id2 typeId edgeId direction =>
    let rows := pushEdge id1 id2 typeId edgeId direction .empty
    rows.edges.Disjoint c.edges ∧ rows.equalFromTo.Disjoint c.equalFromTo ∧
      rows.equalFromType.Disjoint c.equalFromType ∧ rows.equalToType.Disjoint c.equalToType ∧
        rows.equalFromToType.Disjoint c.equalFromToType

/-- The record repeats nothing that was read before.  An edge is numbered, so it can only repeat
one when the numbers have outgrown the 56 bits that an id has for them. -/
def New (s : OnDiskImport) : Record → Prop
  | edge id1 id2 typeId edgeId direction =>
    2 ^ 56 ≤ s.edgeCount + 1 → (edge id1 id2 typeId edgeId direction).NewIn s.collected
  | record => record.NewIn s.collected

def Counts (s s' : OnDiskImport) : Record → Prop
  | edge _ _ typeId edgeId _ =>
    edgeId = (s.edgeCount + 1) ||| ObjectId.maskEdge ∧ s'.edgeCount = s.edgeCount + 1 ∧
      s'.type2totalCount =
        Function.update s.type2totalCount typeId (s.type2totalCount typeId + 1)
  | _ => s'.edgeCount = s.edgeCount ∧ s'.type2totalCount = s.type2totalCount

end Record

section

variable (atof : Bytes → Nat) (str : Bytes) (s : OnDiskImport)

def propRecord (object : OnDiskImport → Nat) (resolve : Resolver) : Except String (Option Record) :=
  (resolve str s.ids).map fun r => some (.property (object s) s.keyId r.1)

def Action.record : Action → Except String (Option Record)
  | finishNodeLine => .ok (some (.node s.id1))
  | addNodeLabel => (stringId str s.ids).map fun r => some (.label s.id1 r.1)
  | addNodePropString => propRecord str s OnDiskImport.id1 stringLiteralId
  | addNodePropInt => propRecord str s OnDiskImport.id1 intId
  | addNodePropFloat => propRecord str s OnDiskImport.id1 (floatId atof)
  | addNodePropTrue => propRecord str s OnDiskImport.id1 trueId
  | addNodePropFalse => propRecord str s OnDiskImport.id1 falseId
  | addEdgePropString => propRecord str s OnDiskImport.edgeId stringLiteralId
  | addEdgePropInt => propRecord str s OnDiskImport.edgeId intId
  | addEdgePropFloat => propRecord str s OnDiskImport.edgeId (floatId atof)
  | addEdgePropTrue => propRecord str s OnDiskImport.edgeId trueId
  | addEdgePropFalse => propRecord str s OnDiskImport.edgeId falseId
  | saveEdgeType => (identifierId str s.ids).map fun r =>
    some (.edge s.id1 s.id2 r.1 ((s.edgeCount + 1) ||| ObjectId.maskEdge) s.direction)
  | _ => .ok none

end

def Appends (s s' : OnDiskImport) : Option Record → Prop
  | none => s'.collected = s.collected ∧ s'.edgeCount = s.edgeCount ∧
    s'.type2totalCount = s.type2totalCount
  | some record => s'.collected = record.push s.collected ∧ record.Counts s s'

section

variable {atof : Bytes → Nat} {str : Bytes} {s s' : OnDiskImport} {action : Action}

theorem appends_addProp {object : OnDiskImport → Nat} {resolve : Resolver}
    (h : OnDiskImport.addProp object resolve str s = .ok s') :
    ∃ r, propRecord str s object resolve = .ok r ∧ Appends s s' r := by
  obtain ⟨id, ids, hresolve, rfl⟩ := OnDiskImport.addProp_eq_ok.mp h
  refine ⟨some (.property (object s) s.keyId id), ?_, rfl, rfl, rfl⟩
  rw [propRecord, hresolve]
  rfl

theorem appends_func (h : action.func atof str s = .ok s') :
    ∃ r, action.record atof str s = .ok r ∧ Appends s s' r := by
  cases action with
  | addNodePropString | addNodePropInt | addNodePropFloat | addNodePropTrue | addNodePropFalse
  | addEdgePropString | addEdgePropInt | addEdgePropFloat | addEdgePropTrue
  | addEdgePropFalse => exact appends_addProp h
  | saveEdgeType =>
    cases h
    exact ⟨_, rfl, rfl, rfl, rfl, rfl⟩
  | addNodeLabel | finishNodeLine =>
    cases h
    exact ⟨_, rfl, rfl, rfl, rfl⟩
  | saveFirstIdIdentifier | saveFirstIdAnon | saveFirstIdString | saveFirstIdInt | saveFirstIdFloat
  | saveFirstIdTrue | saveFirstIdFalse =>
    obtain ⟨id, ids, -, rfl⟩ := OnDiskImport.saveFirstId_eq_ok.mp h
    exact ⟨none, rfl, rfl, rfl, rfl⟩
  | saveSecondIdIdentifier | saveSecondIdAnon | saveSecondIdString | saveSecondIdInt
  | saveSecondIdFloat | saveSecondIdTrue | saveSecondIdFalse =>
    obtain ⟨id, ids, -, rfl⟩ := OnDiskImport.saveSecondId_eq_ok.mp h
    exact ⟨none, rfl, rfl, rfl, rfl⟩
  | saveFirstIdImplicit =>
    have hcases : OnDiskImport.saveFirstIdImplicit str s = .ok s' := h
    unfold OnDiskImport.saveFirstIdImplicit at hcases
    split_ifs at hcases <;> cases hcases <;> exact ⟨none, rfl, rfl, rfl, rfl⟩
  | _ =>
    cases h
    exact ⟨none, rfl, rfl, rfl, rfl⟩

end

structure Collections.Distinct (c : Collections) : Prop where
  declaredNodes : c.declaredNodes.Nodup
  labels : c.labels.Nodup
  properties : c.properties.Nodup
  edges : c.edges.Nodup
  equalFromTo : c.equalFromTo.Nodup
  equalFromType : c.equalFromType.Nodup
  equalToType : c.equalToType.Nodup
  equalFromToType : c.equalFromToType.Nodup

theorem Collections.distinct_empty : Collections.empty.Distinct := by
  constructor <;> exact List.nodup_nil

theorem nodup_append_singleton {α : Type} {l : List α} {a : α} :
    (l ++ [a]).Nodup ↔ l.Nodup ∧ a ∉ l := by
  rw [List.nodup_append_comm, List.singleton_append, List.nodup_cons, and_comm]

theorem nodup_append_short {α : Type} {l m : List α} (hm : m.length ≤ 1) :
    (l ++ m).Nodup ↔ l.Nodup ∧ m.Disjoint l := by
  match m with
  | [] => simp
  | [a] => rw [nodup_append_singleton, List.singleton_disjoint]
  | _ :: _ :: _ => exact absurd hm (by simp)

theorem pushEdge_append (id1 id2 typeId edgeId : Nat) (direction : Bool) (c : Collections) :
    let rows := pushEdge id1 id2 typeId edgeId direction .empty
    pushEdge id1 id2 typeId edgeId direction c =
      { c with
        edges := c.edges ++ rows.edges
        equalFromTo := c.equalFromTo ++ rows.equalFromTo
        equalFromType := c.equalFromType ++ rows.equalFromType
        equalToType := c.equalToType ++ rows.equalToType
        equalFromToType := c.equalFromToType ++ rows.equalFromToType } := by
  simp [pushEdge, Collections.empty]

theorem length_pushEdge (id1 id2 typeId edgeId : Nat) (direction : Bool) :
    let rows := pushEdge id1 id2 typeId edgeId direction .empty
    rows.edges.length ≤ 1 ∧ rows.equalFromTo.length ≤ 1 ∧ rows.equalFromType.length ≤ 1 ∧
      rows.equalToType.length ≤ 1 ∧ rows.equalFromToType.length ≤ 1 := by
  have hif : ∀ {α : Type} (p : Prop) [Decidable p] (x : α), (if p then [x] else []).length ≤ 1 := by
    intro α p _ x
    split_ifs
    · exact le_rfl
    · exact Nat.zero_le 1
  cases direction with
  | true =>
    simp only [pushEdge, Collections.empty, List.nil_append, Bool.not_true, Bool.false_eq_true, and_false,
      if_false, List.append_nil]
    exact ⟨le_rfl, hif _ _, hif _ _, hif _ _, hif _ _⟩
  | false =>
    simp only [pushEdge, Collections.empty, List.nil_append, Bool.not_false, Bool.false_eq_true, and_false,
      if_false, List.append_nil]
    exact ⟨le_rfl, hif _ _, hif _ _, hif _ _, hif _ _⟩

namespace Record

variable {record : Record} {c : Collections} {s : OnDiskImport}

theorem distinct_push : (record.push c).Distinct ↔ c.Distinct ∧ record.NewIn c := by
  cases record with
  | node nodeId =>
    constructor
    · intro h
      have hnode := nodup_append_singleton.mp h.declaredNodes
      exact ⟨{ h with declaredNodes := hnode.1 }, hnode.2⟩
    · exact fun h => { h.1 with declaredNodes := nodup_append_singleton.mpr ⟨h.1.declaredNodes, h.2⟩ }
  | label nodeId labelId =>
    constructor
    · intro h
      have hlabel := nodup_append_singleton.mp h.labels
      exact ⟨{ h with labels := hlabel.1 }, hlabel.2⟩
    · exact fun h => { h.1 with labels := nodup_append_singleton.mpr ⟨h.1.labels, h.2⟩ }
  | property objectId keyId valueId =>
    constructor
    · intro h
      have hproperty := nodup_append_singleton.mp h.properties
      exact ⟨{ h with properties := hproperty.1 }, hproperty.2⟩
    · exact fun h => { h.1 with properties := nodup_append_singleton.mpr ⟨h.1.properties, h.2⟩ }
  | edge id1 id2 typeId edgeId direction =>
    obtain ⟨hedges, hft, hfy, hty, hfty⟩ := length_pushEdge id1 id2 typeId edgeId direction
    rw [push, pushEdge_append, NewIn]
    constructor
    · intro h
      have hedges' := (nodup_append_short hedges).mp h.edges
      have hft' := (nodup_append_short hft).mp h.equalFromTo
      have hfy' := (nodup_append_short hfy).mp h.equalFromType
      have hty' := (nodup_append_short hty).mp h.equalToType
      have hfty' := (nodup_append_short hfty).mp h.equalFromToType
      exact ⟨⟨h.declaredNodes, h.labels, h.properties, hedges'.1, hft'.1, hfy'.1, hty'.1, hfty'.1⟩,
        hedges'.2, hft'.2, hfy'.2, hty'.2, hfty'.2⟩
    · intro ⟨h, hedges', hft', hfy', hty', hfty'⟩
      exact { h with
        edges := (nodup_append_short hedges).mpr ⟨h.edges, hedges'⟩
        equalFromTo := (nodup_append_short hft).mpr ⟨h.equalFromTo, hft'⟩
        equalFromType := (nodup_append_short hfy).mpr ⟨h.equalFromType, hfy'⟩
        equalToType := (nodup_append_short hty).mpr ⟨h.equalToType, hty'⟩
        equalFromToType := (nodup_append_short hfty).mpr ⟨h.equalFromToType, hfty'⟩ }

end Record

def NumberedUpTo (n : Nat) (ids : List Nat) : Prop :=
  ∀ id ∈ ids, ∃ k ≤ n, id = k ||| ObjectId.maskEdge

structure Numbered (s : OnDiskImport) : Prop where
  edgeCount : s.edgeCount = s.collected.edges.length
  edges : ∀ k r, s.collected.edges[k]? = some r → r.2.2.2 = (k + 1) ||| ObjectId.maskEdge
  types : ∀ t, s.type2totalCount t = (s.collected.edges.map (·.2.2.1)).count t
  equalFromTo : NumberedUpTo s.edgeCount (s.collected.equalFromTo.map (·.2.2))
  equalFromType : NumberedUpTo s.edgeCount (s.collected.equalFromType.map (·.2.2))
  equalToType : NumberedUpTo s.edgeCount (s.collected.equalToType.map (·.2.2))
  equalFromToType : NumberedUpTo s.edgeCount (s.collected.equalFromToType.map (·.2))

theorem numbered_start (hash : Bytes → UInt64) (id1 id2 typeId edgeId keyId : Nat) (direction : Bool) :
    Numbered (.start hash id1 id2 typeId edgeId keyId direction) where
  edgeCount := rfl
  edges := fun _ _ h => absurd h (by simp [OnDiskImport.start, Collections.empty])
  types := fun _ => rfl
  equalFromTo := by simp [NumberedUpTo, OnDiskImport.start, Collections.empty]
  equalFromType := by simp [NumberedUpTo, OnDiskImport.start, Collections.empty]
  equalToType := by simp [NumberedUpTo, OnDiskImport.start, Collections.empty]
  equalFromToType := by simp [NumberedUpTo, OnDiskImport.start, Collections.empty]

section

variable {n : Nat} {ids ids' : List Nat} {s s' : OnDiskImport} {record : Record}

theorem NumberedUpTo.append (h : NumberedUpTo n ids)
    (h' : ∀ id ∈ ids', id = (n + 1) ||| ObjectId.maskEdge) : NumberedUpTo (n + 1) (ids ++ ids') := by
  intro id hid
  rcases List.mem_append.mp hid with hid | hid
  · obtain ⟨k, hk, heq⟩ := h id hid
    exact ⟨k, by omega, heq⟩
  · exact ⟨n + 1, le_rfl, h' id hid⟩

theorem NumberedUpTo.next_notMem (h : NumberedUpTo n ids) (hn : n + 1 < 2 ^ 56) :
    (n + 1) ||| ObjectId.maskEdge ∉ ids := by
  intro hmem
  obtain ⟨k, hk, heq⟩ := h _ hmem
  have hnext := edge_inj hn (by omega) heq
  omega

theorem Numbered.numberedUpTo (h : Numbered s) :
    NumberedUpTo s.edgeCount (s.collected.edges.map (·.2.2.2)) := by
  intro id hid
  obtain ⟨r, hr, rfl⟩ := List.mem_map.mp hid
  obtain ⟨k, hk⟩ := List.mem_iff_getElem?.mp hr
  refine ⟨k + 1, ?_, h.edges k r hk⟩
  obtain ⟨hlt, -⟩ := List.getElem?_eq_some_iff.mp hk
  rw [h.edgeCount]
  omega

theorem id_of_mem_pushEdge (id1 id2 typeId edgeId : Nat) (direction : Bool) :
    let rows := pushEdge id1 id2 typeId edgeId direction .empty
    (∀ id ∈ rows.edges.map (·.2.2.2), id = edgeId) ∧
      (∀ id ∈ rows.equalFromTo.map (·.2.2), id = edgeId) ∧
      (∀ id ∈ rows.equalFromType.map (·.2.2), id = edgeId) ∧
      (∀ id ∈ rows.equalToType.map (·.2.2), id = edgeId) ∧
      ∀ id ∈ rows.equalFromToType.map (·.2), id = edgeId := by
  have hif : ∀ {α : Type} (p : Prop) [Decidable p] (f : α → Nat) (x : α), f x = edgeId →
      ∀ id ∈ (if p then [x] else []).map f, id = edgeId := by
    intro α p _ f x hx id hid
    split_ifs at hid
    · exact (List.mem_singleton.mp hid).trans hx
    · exact absurd hid List.not_mem_nil
  cases direction with
  | true =>
    simp only [pushEdge, Collections.empty, List.nil_append, Bool.not_true, Bool.false_eq_true, and_false,
      if_false, List.append_nil]
    exact ⟨fun id hid => List.mem_singleton.mp hid, hif _ _ _ rfl, hif _ _ _ rfl, hif _ _ _ rfl,
      hif _ _ _ rfl⟩
  | false =>
    simp only [pushEdge, Collections.empty, List.nil_append, Bool.not_false, Bool.false_eq_true, and_false,
      if_false, List.append_nil]
    exact ⟨fun id hid => List.mem_singleton.mp hid, hif _ _ _ rfl, hif _ _ _ rfl, hif _ _ _ rfl,
      hif _ _ _ rfl⟩

theorem disjoint_of_ids {α : Type} {f : α → Nat} {id : Nat} {as bs : List α}
    (has : ∀ x ∈ as.map f, x = id) (hbs : id ∉ bs.map f) : as.Disjoint bs := by
  intro a ha hb
  apply hbs
  rw [← has (f a) (List.mem_map_of_mem ha)]
  exact List.mem_map_of_mem hb

theorem Numbered.newIn_edge (h : Numbered s) (hn : s.edgeCount + 1 < 2 ^ 56)
    (id1 id2 typeId : Nat) (direction : Bool) :
    (Record.edge id1 id2 typeId ((s.edgeCount + 1) ||| ObjectId.maskEdge) direction).NewIn
      s.collected := by
  obtain ⟨hedges, hft, hfy, hty, hfty⟩ := id_of_mem_pushEdge id1 id2 typeId
    ((s.edgeCount + 1) ||| ObjectId.maskEdge) direction
  exact ⟨disjoint_of_ids hedges (h.numberedUpTo.next_notMem hn),
    disjoint_of_ids hft (h.equalFromTo.next_notMem hn),
    disjoint_of_ids hfy (h.equalFromType.next_notMem hn),
    disjoint_of_ids hty (h.equalToType.next_notMem hn),
    disjoint_of_ids hfty (h.equalFromToType.next_notMem hn)⟩

theorem Numbered.append_edge (h : Numbered s) (id1 id2 typeId : Nat) (direction : Bool)
    (hcollected : s'.collected = pushEdge id1 id2 typeId
      ((s.edgeCount + 1) ||| ObjectId.maskEdge) direction s.collected)
    (hcount : s'.edgeCount = s.edgeCount + 1)
    (htypes : s'.type2totalCount =
      Function.update s.type2totalCount typeId (s.type2totalCount typeId + 1)) : Numbered s' := by
  obtain ⟨hedges, hft, hfy, hty, hfty⟩ := id_of_mem_pushEdge id1 id2 typeId
    ((s.edgeCount + 1) ||| ObjectId.maskEdge) direction
  let record : Nat × Nat × Nat × Nat :=
    if direction then (id1, id2, typeId, (s.edgeCount + 1) ||| ObjectId.maskEdge)
    else (id2, id1, typeId, (s.edgeCount + 1) ||| ObjectId.maskEdge)
  have hrecord : record.2.2 = (typeId, (s.edgeCount + 1) ||| ObjectId.maskEdge) := by
    cases direction <;> rfl
  have hlist : s'.collected.edges = s.collected.edges ++ [record] := by
    rw [hcollected]
    rfl
  rw [pushEdge_append] at hcollected
  constructor
  · rw [hcount, hlist, List.length_append, h.edgeCount, List.length_singleton]
  · intro k r hk
    rw [hlist] at hk
    by_cases hlt : k < s.collected.edges.length
    · rw [List.getElem?_append_left hlt] at hk
      exact h.edges k r hk
    · rw [List.getElem?_append_right (by omega), List.getElem?_singleton] at hk
      split_ifs at hk with hzero
      obtain rfl := Option.some.inj hk
      have hnumber : s.edgeCount + 1 = k + 1 := by
        rw [h.edgeCount]
        omega
      rw [hrecord, hnumber]
  · intro t
    rw [htypes, hlist, List.map_append, List.count_append, ← h.types, List.map_singleton, hrecord]
    by_cases ht : t = typeId
    · rw [ht, Function.update_self, List.count_singleton_self]
    · rw [Function.update_of_ne ht, List.count_singleton, if_neg (by simpa using Ne.symm ht)]
      rfl
  · rw [hcount, hcollected, List.map_append]
    exact h.equalFromTo.append hft
  · rw [hcount, hcollected, List.map_append]
    exact h.equalFromType.append hfy
  · rw [hcount, hcollected, List.map_append]
    exact h.equalToType.append hty
  · rw [hcount, hcollected, List.map_append]
    exact h.equalFromToType.append hfty

/-- A record keeps the numbering, and it keeps the collections distinct exactly if it is new. -/
theorem Numbered.appends {r : Option Record} (h : Numbered s) (hr : Appends s s' r) :
    Numbered s' ∧ (s'.collected.Distinct ↔ s.collected.Distinct ∧ ∀ record ∈ r, record.New s) := by
  have hsame {c : Collections} (hcollected : s'.collected = c) (hcount : s'.edgeCount = s.edgeCount)
      (htypes : s'.type2totalCount = s.type2totalCount) (hedges : c.edges = s.collected.edges)
      (hft : c.equalFromTo = s.collected.equalFromTo)
      (hfy : c.equalFromType = s.collected.equalFromType)
      (hty : c.equalToType = s.collected.equalToType)
      (hfty : c.equalFromToType = s.collected.equalFromToType) : Numbered s' := by
    constructor <;> simp only [hcollected, hcount, htypes, hedges, hft, hfy, hty, hfty]
    · exact h.edgeCount
    · exact h.edges
    · exact h.types
    · exact h.equalFromTo
    · exact h.equalFromType
    · exact h.equalToType
    · exact h.equalFromToType
  match r with
  | none =>
    obtain ⟨hcollected, hcount, htypes⟩ := hr
    exact ⟨hsame hcollected hcount htypes rfl rfl rfl rfl rfl, by simp [hcollected]⟩
  | some (.node nodeId) | some (.label nodeId labelId) | some (.property objectId keyId valueId) =>
    obtain ⟨hcollected, hcount, htypes⟩ := hr
    refine ⟨hsame hcollected hcount htypes rfl rfl rfl rfl rfl, ?_⟩
    rw [hcollected, Record.distinct_push]
    simp [Record.New]
  | some (.edge id1 id2 typeId edgeId direction) =>
    obtain ⟨hcollected, rfl, hcount, htypes⟩ := hr
    refine ⟨h.append_edge id1 id2 typeId direction hcollected hcount htypes, ?_⟩
    rw [hcollected, Record.distinct_push]
    apply and_congr_right
    intro hdistinct
    simp only [Option.mem_some_iff, forall_eq', Record.New]
    constructor
    · exact fun hnew _ => hnew
    · intro hnew
      by_cases hn : s.edgeCount + 1 < 2 ^ 56
      · exact h.newIn_edge hn id1 id2 typeId direction
      · exact hnew (by omega)

end

def AppendsNew (atof : Bytes → Nat) (current : State × OnDiskImport) (lexeme : Lexeme) : Prop :=
  ∀ slot record, getTransition createAutomata current.1 lexeme.token = some slot →
    slot.func.record atof lexeme.str current.2 = .ok (some record) → record.New current.2

def RepeatsNothing (atof : Bytes → Nat) (current : State × OnDiskImport) (lexemes : List Lexeme) :
    Prop :=
  ∀ read lexeme rest mid, lexemes = read ++ lexeme :: rest →
    readTokens atof current read = .ok mid → AppendsNew atof mid lexeme

section

variable {atof : Bytes → Nat} {current next : State × OnDiskImport} {lexeme : Lexeme}
  {lexemes : List Lexeme}

theorem appends_readToken (h : readToken atof current lexeme = .ok next) :
    ∃ r, Appends current.2 next.2 r ∧
      (AppendsNew atof current lexeme ↔ ∀ record ∈ r, record.New current.2) := by
  obtain ⟨slot, hslot, hfunc, -⟩ := readToken_eq_ok.mp h
  obtain ⟨r, hr, happends⟩ := appends_func hfunc
  refine ⟨r, happends, ?_⟩
  constructor
  · intro hnew record hrecord
    exact hnew slot record hslot (hr.trans (congrArg Except.ok hrecord))
  · intro hnew slot' record hslot' hrecord
    obtain rfl := Option.some.inj (hslot.symm.trans hslot')
    exact hnew record (Except.ok.inj (hr.symm.trans hrecord))

theorem numbered_readTokens (h : readTokens atof current lexemes = .ok next)
    (hnumbered : Numbered current.2) : Numbered next.2 := by
  induction lexemes generalizing current with
  | nil => rwa [readTokens_nil.mp h]
  | cons lexeme lexemes ih =>
    obtain ⟨mid, hmid, h⟩ := readTokens_cons.mp h
    obtain ⟨r, hr, -⟩ := appends_readToken hmid
    exact ih h (hnumbered.appends hr).1

theorem repeatsNothing_cons {mid : State × OnDiskImport}
    (hmid : readToken atof current lexeme = .ok mid) :
    RepeatsNothing atof current (lexeme :: lexemes) ↔
      AppendsNew atof current lexeme ∧ RepeatsNothing atof mid lexemes := by
  constructor
  · intro h
    refine ⟨h [] lexeme lexemes current rfl (readTokens_nil.mpr rfl), ?_⟩
    intro read lexeme' rest last heq hread
    exact h (lexeme :: read) lexeme' rest last (congrArg _ heq)
      (readTokens_cons.mpr ⟨mid, hmid, hread⟩)
  · intro ⟨hnew, h⟩ read lexeme' rest last heq hread
    cases read with
    | nil =>
      obtain rfl := readTokens_nil.mp hread
      rwa [← (List.cons.inj heq).1]
    | cons head read =>
      obtain ⟨rfl, hrest⟩ := List.cons.inj heq
      obtain ⟨mid', hmid', hread⟩ := readTokens_cons.mp hread
      obtain rfl := Except.ok.inj (hmid.symm.trans hmid')
      exact h read lexeme' rest last hrest hread

/-- What a file leaves in the collections is distinct exactly if the file repeats nothing. -/
theorem distinct_readTokens_iff (h : readTokens atof current lexemes = .ok next)
    (hnumbered : Numbered current.2) : next.2.collected.Distinct ↔
      current.2.collected.Distinct ∧ RepeatsNothing atof current lexemes := by
  induction lexemes generalizing current with
  | nil =>
    rw [readTokens_nil.mp h]
    refine (and_iff_left ?_).symm
    intro read lexeme rest mid heq
    cases read <;> cases heq
  | cons lexeme lexemes ih =>
    obtain ⟨mid, hmid, h⟩ := readTokens_cons.mp h
    obtain ⟨r, hr, hnew⟩ := appends_readToken hmid
    obtain ⟨hnumbered', hdistinct⟩ := hnumbered.appends hr
    rw [ih h hnumbered', hdistinct, repeatsNothing_cons hmid, hnew, and_assoc]

end

end Import
end MillenniumDB
