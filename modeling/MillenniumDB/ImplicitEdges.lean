import MillenniumDB.QuadImport

/-!
# Implicit ids

A run of `@` signs as the first id of a line names an element of the current chain: depth 1 is
what the last explicit line declares, and depth `k + 1` the edge of the latest line whose first
id had depth `k`.  The importer keeps a stack of ids for this.
-/

namespace MillenniumDB
namespace Import

inductive Role
  | first | implicit | direction (right : Bool) | second | edgeType | nodeEnd | other
  deriving DecidableEq

namespace Action

def role : Action → Role
  | saveFirstIdIdentifier | saveFirstIdAnon | saveFirstIdString | saveFirstIdIri | saveFirstIdInt
  | saveFirstIdFloat | saveFirstIdTrue | saveFirstIdFalse => .first
  | saveFirstIdImplicit => .implicit
  | setLeftDirection => .direction false
  | setRightDirection => .direction true
  | saveSecondIdIdentifier | saveSecondIdAnon | saveSecondIdString | saveSecondIdIri
  | saveSecondIdInt | saveSecondIdFloat | saveSecondIdTrue | saveSecondIdFalse => .second
  | saveEdgeType => .edgeType
  | finishNodeLine => .nodeEnd
  | _ => .other

def resolver (atof : Bytes → Nat) : Action → Option Resolver
  | saveFirstIdIdentifier | saveSecondIdIdentifier | saveEdgeType => some identifierId
  | saveFirstIdAnon | saveSecondIdAnon => some anonId
  | saveFirstIdString | saveSecondIdString | addNodePropString | addEdgePropString =>
    some stringLiteralId
  | saveFirstIdInt | saveSecondIdInt | addNodePropInt | addEdgePropInt => some intId
  | saveFirstIdFloat | saveSecondIdFloat | addNodePropFloat | addEdgePropFloat =>
    some (floatId atof)
  | saveFirstIdTrue | saveSecondIdTrue | addNodePropTrue | addEdgePropTrue => some trueId
  | saveFirstIdFalse | saveSecondIdFalse | addNodePropFalse | addEdgePropFalse => some falseId
  | savePropKey | addNodeLabel => some stringId
  | _ => none

def resolve (atof : Bytes → Nat) (action : Action) (str : Bytes) (ids : Ids) :
    Except String (Option Nat × Ids) :=
  match action.resolver atof with
  | none => .ok (none, ids)
  | some resolve => (resolve str ids).map fun r => (some r.1, r.2)

end Action

structure SameEdges (s s' : OnDiskImport) : Prop where
  id1 : s'.id1 = s.id1
  id2 : s'.id2 = s.id2
  edgeId : s'.edgeId = s.edgeId
  edgeCount : s'.edgeCount = s.edgeCount
  idsStack : s'.idsStack = s.idsStack
  direction : s'.direction = s.direction
  edges : s'.collected.edges = s.collected.edges

section

variable {atof : Bytes → Nat} {resolve : Resolver} {str : Bytes} {s : OnDiskImport}
  {action : Action}

theorem saveFirstId_eq : OnDiskImport.saveFirstId resolve str s =
    (resolve str s.ids).map fun r => { s with idsStack := [], id1 := r.1, ids := r.2 } := by
  unfold OnDiskImport.saveFirstId
  cases resolve str s.ids <;> rfl

theorem saveSecondId_eq : OnDiskImport.saveSecondId resolve str s =
    (resolve str s.ids).map fun r => { s with id2 := r.1, ids := r.2 } := by
  unfold OnDiskImport.saveSecondId
  cases resolve str s.ids <;> rfl

theorem addProp_eq {object : OnDiskImport → Nat} : OnDiskImport.addProp object resolve str s =
    (resolve str s.ids).map fun r => { s with
      ids := r.2
      collected := { s.collected with
        properties := s.collected.properties ++ [(object s, s.keyId, r.1)] } } := by
  unfold OnDiskImport.addProp
  cases resolve str s.ids <;> rfl

theorem func_first (hrole : action.role = .first) : action.func atof str s =
    (action.resolve atof str s.ids).map fun r =>
      { s with idsStack := [], id1 := r.1.getD s.id1, ids := r.2 } := by
  have hsave : ∀ resolve : Resolver, OnDiskImport.saveFirstId resolve str s =
      ((resolve str s.ids).map fun r => (some r.1, r.2)).map fun r : Option Nat × Ids =>
        { s with idsStack := [], id1 := r.1.getD s.id1, ids := r.2 } := by
    intro resolve
    rw [saveFirstId_eq]
    cases resolve str s.ids <;> rfl
  cases action with
  | saveFirstIdIri => rfl
  | saveFirstIdIdentifier | saveFirstIdAnon | saveFirstIdString | saveFirstIdInt | saveFirstIdFloat
  | saveFirstIdTrue | saveFirstIdFalse => exact hsave _
  | _ => cases hrole

theorem func_second (hrole : action.role = .second) : action.func atof str s =
    (action.resolve atof str s.ids).map fun r =>
      { s with id2 := r.1.getD s.id2, ids := r.2 } := by
  have hsave : ∀ resolve : Resolver, OnDiskImport.saveSecondId resolve str s =
      ((resolve str s.ids).map fun r => (some r.1, r.2)).map fun r : Option Nat × Ids =>
        { s with id2 := r.1.getD s.id2, ids := r.2 } := by
    intro resolve
    rw [saveSecondId_eq]
    cases resolve str s.ids <;> rfl
  cases action with
  | saveSecondIdIri => rfl
  | saveSecondIdIdentifier | saveSecondIdAnon | saveSecondIdString | saveSecondIdInt
  | saveSecondIdFloat | saveSecondIdTrue | saveSecondIdFalse => exact hsave _
  | _ => cases hrole

def edgeRecord (direction : Bool) (id1 id2 typeId edgeId : Nat) : Nat × Nat × Nat × Nat :=
  if direction then (id1, id2, typeId, edgeId) else (id2, id1, typeId, edgeId)

theorem func_edgeType (atof : Bytes → Nat) (str : Bytes) (s : OnDiskImport)
    (hrole : action.role = .edgeType) : ∃ f : Option Nat × Ids → OnDiskImport,
    action.func atof str s = (action.resolve atof str s.ids).map f ∧
      ∀ r, (f r).ids = r.2 ∧ (f r).edgeCount = s.edgeCount + 1 ∧
        (f r).edgeId = (s.edgeCount + 1) ||| ObjectId.maskEdge ∧
        (f r).idsStack = s.idsStack ++ [(s.edgeCount + 1) ||| ObjectId.maskEdge] ∧
        (f r).collected.edges = s.collected.edges ++
          [edgeRecord s.direction s.id1 s.id2 (r.1.getD 0)
            ((s.edgeCount + 1) ||| ObjectId.maskEdge)] := by
  cases action with
  | saveEdgeType =>
    refine ⟨fun r => { s with
      typeId := r.1.getD 0
      ids := r.2
      type2totalCount :=
        Function.update s.type2totalCount (r.1.getD 0) (s.type2totalCount (r.1.getD 0) + 1)
      edgeCount := s.edgeCount + 1
      edgeId := (s.edgeCount + 1) ||| ObjectId.maskEdge
      collected := OnDiskImport.pushEdge s.id1 s.id2 (r.1.getD 0)
        ((s.edgeCount + 1) ||| ObjectId.maskEdge) s.direction s.collected
      idsStack := s.idsStack ++ [(s.edgeCount + 1) ||| ObjectId.maskEdge] }, rfl,
      fun r => ⟨rfl, rfl, rfl, rfl, rfl⟩⟩
  | _ => cases hrole

theorem func_other (atof : Bytes → Nat) (str : Bytes) (s : OnDiskImport)
    (hrole : action.role = .other) : ∃ f : Option Nat × Ids → OnDiskImport,
    action.func atof str s = (action.resolve atof str s.ids).map f ∧
      ∀ r, SameEdges s (f r) ∧ (f r).ids = r.2 := by
  have hprop : ∀ (object : OnDiskImport → Nat) (resolve : Resolver),
      ∃ f : Option Nat × Ids → OnDiskImport, OnDiskImport.addProp object resolve str s =
        ((resolve str s.ids).map fun r => (some r.1, r.2)).map f ∧
          ∀ r, SameEdges s (f r) ∧ (f r).ids = r.2 := by
    intro object resolve
    refine ⟨fun r => { s with
      ids := r.2
      collected := { s.collected with
        properties := s.collected.properties ++ [(object s, s.keyId, r.1.getD 0)] } }, ?_,
      fun r => ⟨⟨rfl, rfl, rfl, rfl, rfl, rfl, rfl⟩, rfl⟩⟩
    rw [addProp_eq]
    cases resolve str s.ids <;> rfl
  cases action with
  | addNodePropString | addNodePropInt | addNodePropFloat | addNodePropTrue | addNodePropFalse
  | addEdgePropString | addEdgePropInt | addEdgePropFloat | addEdgePropTrue
  | addEdgePropFalse => exact hprop _ _
  | savePropKey =>
    exact ⟨fun r => { s with keyId := r.1.getD 0, ids := r.2 }, rfl,
      fun r => ⟨⟨rfl, rfl, rfl, rfl, rfl, rfl, rfl⟩, rfl⟩⟩
  | addNodeLabel =>
    exact ⟨fun r => { s with
      ids := r.2
      collected := { s.collected with labels := s.collected.labels ++ [(s.id1, r.1.getD 0)] } },
      rfl, fun r => ⟨⟨rfl, rfl, rfl, rfl, rfl, rfl, rfl⟩, rfl⟩⟩
  | doNothing | printError =>
    exact ⟨fun r => { s with ids := r.2 }, rfl,
      fun r => ⟨⟨rfl, rfl, rfl, rfl, rfl, rfl, rfl⟩, rfl⟩⟩
  | finishWrongLine | finishEdgeLine =>
    exact ⟨fun r => { s with ids := r.2, currentLine := s.currentLine + 1 }, rfl,
      fun r => ⟨⟨rfl, rfl, rfl, rfl, rfl, rfl, rfl⟩, rfl⟩⟩
  | _ => cases hrole

end

/-- What a position of a line names; an IRI names no id, since IRIs are not supported. -/
abbrev Named := Option Nat

def edgeName (n : Nat) : Nat := n ||| ObjectId.maskEdge

/-- What has been read of a file, with the chain that implicit ids name: `chain k` is what depth
`k` stands for, if it stands for anything. -/
structure Naming where
  ids : Ids
  edgeCount : Nat
  direction : Bool
  first : Named
  depth : Nat
  second : Named
  chain : Nat → Option Named
  edges : List (Named × Named × Nat × Nat)

namespace Naming

def start (hash : Bytes → UInt64) : Naming := ⟨⟨.empty hash, 0⟩, 0, true, none, 0, none, fun _ => none, []⟩

/-- What one token says.  There is no naming when an implicit id stands for nothing, or when a
text is no id. -/
def read (atof : Bytes → Nat) (action : Action) (str : Bytes) (c : Naming) : Option Naming :=
  match action.role, action.resolve atof str c.ids with
  | _, .error _ => none
  | .first, .ok (id, ids) =>
    some { c with ids := ids, first := id, depth := 0, chain := fun _ => none }
  | .implicit, .ok _ =>
    (c.chain str.length).map fun x => { c with first := x, depth := str.length }
  | .direction right, .ok _ => some { c with direction := right }
  | .second, .ok (id, ids) => some { c with ids := ids, second := id }
  | .edgeType, .ok (id, ids) =>
    let edge := edgeName (c.edgeCount + 1)
    let ends := if c.direction then (c.first, c.second) else (c.second, c.first)
    some { c with
      ids := ids
      edgeCount := c.edgeCount + 1
      edges := c.edges ++ [(ends.1, ends.2, id.getD 0, edge)]
      chain := Function.update c.chain (c.depth + 1) (some (some edge)) }
  | .nodeEnd, .ok _ => some { c with chain := Function.update c.chain 1 (some c.first) }
  | .other, .ok (_, ids) => some { c with ids := ids }

def readToken (atof : Bytes → Nat) (current : State × Naming) (lexeme : Lexeme) :
    Option (State × Naming) :=
  (getTransition createAutomata current.1 lexeme.token).bind fun slot =>
    (current.2.read atof slot.func lexeme.str).map fun c => (slot.value, c)

def readTokens (atof : Bytes → Nat) (current : State × Naming) (lexemes : List Lexeme) :
    Option (State × Naming) :=
  lexemes.foldlM (readToken atof) current

end Naming

/-- How much of a line has been read: everything that edges depend on, the first id of a line
that may still be a node line, an implicit first id, a direction, or the second id. -/
inductive Phase
  | done | node | implicit | second | typed | wrong
  deriving DecidableEq

def State.phase : State → Phase
  | lineBegin | edgeDefined | expectEdgePropColon | expectEdgePropValue => .done
  | firstId | nodeDefined | expectNodeLabel | expectNodePropColon | expectNodePropValue => .node
  | implicitEdge => .implicit
  | expectEdgeSecond => .second
  | expectEdgeTypeColon | expectEdgeType => .typed
  | wrongLine => .wrong

def Role.joins : Role → Phase → Phase → Bool
  | first, p, q => p = .done && q = .node
  | implicit, p, q => p = .done && q = .implicit
  | direction _, p, q => (p = .node || p = .implicit) && q = .second
  | second, p, q => p = .second && q = .typed
  | edgeType, p, q => p = .typed && q = .done
  | nodeEnd, p, q => p = .node && q = .done
  | other, p, q => p = q

/-- The slot of a declared transition joins two parts of a line, and it is one for an implicit
id just when the token is. -/
theorem slot_joins (s : State) (t : Token) (hs : s ≠ .wrongLine) (ht : Declared s t) :
    ∃ slot, getTransition createAutomata s t = some slot ∧ slot.value ≠ .wrongLine ∧
      slot.func.role.joins s.phase slot.value.phase = true ∧
      (slot.func.role = .implicit ↔ t = .implicit) := by
  revert s t
  decide +kernel

def Agrees (x : Named) (id : Nat) : Prop := ∀ n, x = some n → n = id

def EdgeAgrees (x : Named × Named × Nat × Nat) (edge : Nat × Nat × Nat × Nat) : Prop :=
  Agrees x.1 edge.1 ∧ Agrees x.2.1 edge.2.1 ∧ x.2.2 = edge.2.2

structure Explicit (s : OnDiskImport) (c : Naming) : Prop where
  depth : c.depth = 0
  chain : c.chain = fun _ => none
  idsStack : s.idsStack = []

/-- In a line with an implicit id of depth 1 the stack holds what depth 1 names, and the id of
the edge before this one. -/
structure Implicit (fresh : Prop) (s : OnDiskImport) (c : Naming) : Prop where
  depth : c.depth = 1
  short : ∀ k, 3 ≤ k → c.chain k = none
  idsStack : ∃ x y z, c.chain 1 = some x ∧ Agrees x y ∧ s.idsStack = [y, z] ∧
    (fresh → z ≠ edgeName (c.edgeCount + 1))

/-- Behind the last edge or node the stack starts with what depth 1 names.  Where depth 2 names
an edge, the stack holds another id in its place. -/
structure Done (fresh : Prop) (s : OnDiskImport) (c : Naming) : Prop where
  first : ∀ x, c.chain 1 = some x → ∃ y rest, s.idsStack = y :: rest ∧ Agrees x y
  second : ∀ x, c.chain 2 = some x → ∃ y z e, x = some e ∧ s.idsStack = [y, z, e] ∧
    (fresh → z ≠ e)
  short : ∀ k, 3 ≤ k → c.chain k = none

def Position (fresh : Prop) (s : OnDiskImport) (c : Naming) : Phase → Prop
  | .done => Done fresh s c
  | .node => Explicit s c ∧ Agrees c.first s.id1
  | .implicit => Implicit fresh s c ∧ Agrees c.first s.id1
  | .second => (Explicit s c ∨ Implicit fresh s c) ∧ Agrees c.first s.id1 ∧
      s.direction = c.direction
  | .typed => (Explicit s c ∨ Implicit fresh s c) ∧ Agrees c.first s.id1 ∧
      s.direction = c.direction ∧ Agrees c.second s.id2
  | .wrong => False

/-- The importer has read what the text says, as long as no depth exceeds 1.  The proposition
`fresh` says that `edge_id` held no id of an edge at the start. -/
structure Follows (fresh : Prop) (p : Phase) (s : OnDiskImport) (c : Naming) : Prop where
  ids : s.ids = c.ids
  edgeCount : s.edgeCount = c.edgeCount
  zero : c.chain 0 = none
  edges : List.Forall₂ EdgeAgrees c.edges s.collected.edges
  edgeId : fresh → s.edgeId ≠ edgeName (s.edgeCount + 1)
  position : Position fresh s c p

theorem edgeName_succ_ne (n : Nat) : edgeName n ≠ edgeName (n + 1) := by
  intro h
  have hbit : (edgeName n).testBit 0 = (edgeName (n + 1)).testBit 0 := by rw [h]
  have hmask : ObjectId.maskEdge.testBit 0 = false := by decide
  rw [edgeName, edgeName, Nat.testBit_or, Nat.testBit_or, hmask, Bool.or_false, Bool.or_false,
    Nat.testBit_zero, Nat.testBit_zero, decide_eq_decide] at hbit
  omega

section

variable {atof : Bytes → Nat} {str : Bytes} {s s' : OnDiskImport} {c c' : Naming}
  {action : Action} {fresh : Prop} {p q : Phase}

theorem Agrees.getD (x : Named) (n : Nat) : Agrees x (x.getD n) := by
  intro m h
  rw [h]
  rfl

theorem Explicit.congr (h : Explicit s c) (hs : s'.idsStack = s.idsStack)
    (hdepth : c'.depth = c.depth) (hchain : c'.chain = c.chain) : Explicit s' c' :=
  ⟨hdepth.trans h.depth, hchain.trans h.chain, hs.trans h.idsStack⟩

theorem Implicit.congr (h : Implicit fresh s c) (hs : s'.idsStack = s.idsStack)
    (hdepth : c'.depth = c.depth) (hchain : c'.chain = c.chain)
    (hcount : c'.edgeCount = c.edgeCount) : Implicit fresh s' c' where
  depth := hdepth.trans h.depth
  short := hchain ▸ h.short
  idsStack := by
    rw [hs, hchain, hcount]
    exact h.idsStack

theorem resolve_of_read (h : c.read atof action str = some c') :
    ∃ id ids, action.resolve atof str c.ids = .ok (id, ids) := by
  unfold Naming.read at h
  cases hresolve : action.resolve atof str c.ids with
  | error e =>
    rw [hresolve] at h
    cases h
  | ok r => exact ⟨r.1, r.2, rfl⟩

theorem follows_first (hrole : action.role = .first) (h : Follows fresh .done s c)
    (hread : c.read atof action str = some c') :
    ∃ s', action.func atof str s = .ok s' ∧ Follows fresh .node s' c' := by
  obtain ⟨id, ids, hresolve⟩ := resolve_of_read hread
  rw [Naming.read, hrole, hresolve] at hread
  cases hread
  have hfunc : action.func atof str s =
      .ok { s with idsStack := [], id1 := id.getD s.id1, ids := ids } := by
    rw [func_first hrole, h.ids, hresolve]
    rfl
  exact ⟨_, hfunc, rfl, h.edgeCount, rfl, h.edges, h.edgeId, ⟨rfl, rfl, rfl⟩, Agrees.getD _ _⟩

theorem follows_second (hrole : action.role = .second) (h : Follows fresh .second s c)
    (hread : c.read atof action str = some c') :
    ∃ s', action.func atof str s = .ok s' ∧ Follows fresh .typed s' c' := by
  obtain ⟨id, ids, hresolve⟩ := resolve_of_read hread
  rw [Naming.read, hrole, hresolve] at hread
  cases hread
  have hfunc : action.func atof str s = .ok { s with id2 := id.getD s.id2, ids := ids } := by
    rw [func_second hrole, h.ids, hresolve]
    rfl
  obtain ⟨hstack, hfirst, hdirection⟩ := h.position
  refine ⟨_, hfunc, rfl, h.edgeCount, h.zero, h.edges, h.edgeId, ?_, hfirst, hdirection,
    Agrees.getD _ _⟩
  exact hstack.imp (·.congr rfl rfl rfl) (·.congr rfl rfl rfl rfl)

theorem follows_implicit (hrole : action.role = .implicit) (h : Follows fresh .done s c)
    (hread : c.read atof action str = some c') (hdepth : str.length ≤ 1) :
    ∃ s', action.func atof str s = .ok s' ∧ Follows fresh .implicit s' c' := by
  obtain ⟨id, ids, hresolve⟩ := resolve_of_read hread
  rw [Naming.read, hrole, hresolve] at hread
  obtain ⟨x, hx, rfl⟩ := Option.map_eq_some_iff.mp hread
  have hlength : str.length = 1 := by
    by_contra hne
    have hzero : str.length = 0 := by omega
    rw [hzero, h.zero] at hx
    cases hx
  rw [hlength] at hx
  obtain ⟨y, rest, hstack, hagrees⟩ := h.position.first x hx
  have hfunc : action.func atof str s = .ok { s with id1 := y, idsStack := [y, s.edgeId] } := by
    cases action with
    | saveFirstIdImplicit =>
      show OnDiskImport.saveFirstIdImplicit str s = _
      unfold OnDiskImport.saveFirstIdImplicit
      rw [hstack, hlength]
      cases rest <;> simp
    | _ => cases hrole
  refine ⟨_, hfunc, h.ids, h.edgeCount, h.zero, h.edges, h.edgeId, ⟨hlength, h.position.short, x, y,
    s.edgeId, hx, hagrees, rfl, ?_⟩, hagrees⟩
  intro hfresh
  rw [← h.edgeCount]
  exact h.edgeId hfresh

theorem follows_direction {right : Bool} (hrole : action.role = .direction right)
    (h : Follows fresh p s c) (hp : p = .node ∨ p = .implicit)
    (hread : c.read atof action str = some c') :
    ∃ s', action.func atof str s = .ok s' ∧ Follows fresh .second s' c' := by
  obtain ⟨id, ids, hresolve⟩ := resolve_of_read hread
  rw [Naming.read, hrole, hresolve] at hread
  cases hread
  have hfunc : action.func atof str s = .ok { s with direction := right } := by
    cases action with
    | setLeftDirection | setRightDirection =>
      cases hrole
      rfl
    | _ => cases hrole
  refine ⟨_, hfunc, h.ids, h.edgeCount, h.zero, h.edges, h.edgeId, ?_⟩
  rcases hp with rfl | rfl
  · obtain ⟨hstack, hfirst⟩ := h.position
    exact ⟨.inl (hstack.congr rfl rfl rfl), hfirst, rfl⟩
  · obtain ⟨hstack, hfirst⟩ := h.position
    exact ⟨.inr (hstack.congr rfl rfl rfl rfl), hfirst, rfl⟩

theorem follows_edgeType (hrole : action.role = .edgeType) (h : Follows fresh .typed s c)
    (hread : c.read atof action str = some c') :
    ∃ s', action.func atof str s = .ok s' ∧ Follows fresh .done s' c' := by
  obtain ⟨id, ids, hresolve⟩ := resolve_of_read hread
  rw [Naming.read, hrole, hresolve] at hread
  cases hread
  obtain ⟨f, hf, hspec⟩ := func_edgeType atof str s hrole
  have hfunc : action.func atof str s = .ok (f (id, ids)) := by
    rw [hf, h.ids, hresolve]
    rfl
  obtain ⟨hids, hcount, hedgeId, hidsStack, hedges⟩ := hspec (id, ids)
  obtain ⟨hstack, hfirst, hdirection, hsecond⟩ := h.position
  rw [h.edgeCount] at hcount hedgeId hidsStack hedges
  refine ⟨_, hfunc, hids, hcount, ?_, ?_, ?_, ?_⟩
  · simp [h.zero]
  · rw [hedges, hdirection]
    refine List.rel_append h.edges (.cons ?_ .nil)
    cases c.direction
    · exact ⟨hsecond, hfirst, rfl⟩
    · exact ⟨hfirst, hsecond, rfl⟩
  · intro _
    rw [hedgeId, hcount]
    exact edgeName_succ_ne _
  · rcases hstack with ⟨hdepth, hchain, hstack⟩ | ⟨hdepth, hshort, x, y, z, hx, hxy, hstack, hz⟩
    · -- the edge of an explicit line is what depth 1 names
      refine ⟨?_, ?_, ?_⟩
      · intro x hx
        rw [hdepth] at hx
        obtain rfl : some (edgeName (c.edgeCount + 1)) = x := by simpa using hx
        refine ⟨edgeName (c.edgeCount + 1), [], by rw [hidsStack, hstack]; rfl, fun n hn => ?_⟩
        exact (Option.some.inj hn).symm
      · intro x hx
        simp [hdepth, hchain] at hx
      · intro k hk
        have hne : k ≠ 1 := by omega
        simp [hdepth, hchain, hne]
    · -- the edge of a line of depth 1 is what depth 2 names
      refine ⟨?_, ?_, ?_⟩
      · intro x' hx'
        obtain rfl : x = x' := by simpa [hdepth, hx] using hx'
        exact ⟨y, [z, edgeName (c.edgeCount + 1)], by rw [hidsStack, hstack]; rfl, hxy⟩
      · intro x' hx'
        rw [hdepth] at hx'
        obtain rfl : some (edgeName (c.edgeCount + 1)) = x' := by simpa using hx'
        exact ⟨y, z, _, rfl, by rw [hidsStack, hstack]; rfl, hz⟩
      · intro k hk
        have hne : k ≠ 2 := by omega
        simpa [hdepth, hne] using hshort k hk

theorem follows_nodeEnd (hrole : action.role = .nodeEnd) (h : Follows fresh .node s c)
    (hread : c.read atof action str = some c') :
    ∃ s', action.func atof str s = .ok s' ∧ Follows fresh .done s' c' := by
  obtain ⟨id, ids, hresolve⟩ := resolve_of_read hread
  rw [Naming.read, hrole, hresolve] at hread
  cases hread
  obtain ⟨⟨hdepth, hchain, hstack⟩, hfirst⟩ := h.position
  have hfunc : action.func atof str s = .ok { s with
      collected := { s.collected with declaredNodes := s.collected.declaredNodes ++ [s.id1] }
      idsStack := [s.id1], currentLine := s.currentLine + 1 } := by
    cases action with
    | finishNodeLine =>
      show OnDiskImport.finishNodeLine str s = _
      rw [OnDiskImport.finishNodeLine, hstack, List.nil_append]
    | _ => cases hrole
  refine ⟨_, hfunc, h.ids, h.edgeCount, ?_, h.edges, h.edgeId, ?_, ?_, ?_⟩
  · exact h.zero
  · intro x hx
    obtain rfl : c.first = x := by simpa using hx
    exact ⟨s.id1, [], rfl, hfirst⟩
  · intro x hx
    simp [hchain] at hx
  · intro k hk
    have hne : k ≠ 1 := by omega
    simp [hchain, hne]

theorem follows_other (hrole : action.role = .other) (h : Follows fresh p s c)
    (hread : c.read atof action str = some c') :
    ∃ s', action.func atof str s = .ok s' ∧ Follows fresh p s' c' := by
  obtain ⟨id, ids, hresolve⟩ := resolve_of_read hread
  rw [Naming.read, hrole, hresolve] at hread
  cases hread
  obtain ⟨f, hf, hsame⟩ := func_other atof str s hrole
  have hfunc : action.func atof str s = .ok (f (id, ids)) := by
    rw [hf, h.ids, hresolve]
    rfl
  obtain ⟨⟨hid1, hid2, hedgeId, hedgeCount, hidsStack, hdirection, hedges⟩, hids⟩ := hsame (id, ids)
  refine ⟨_, hfunc, hids, hedgeCount.trans h.edgeCount, h.zero, hedges ▸ h.edges, ?_, ?_⟩
  · rw [hedgeId, hedgeCount]
    exact h.edgeId
  · have hposition := h.position
    cases p with
    | done =>
      obtain ⟨h₁, h₂, h₃⟩ := hposition
      exact ⟨by rwa [hidsStack], by rwa [hidsStack], h₃⟩
    | node => exact ⟨hposition.1.congr hidsStack rfl rfl, hid1 ▸ hposition.2⟩
    | implicit => exact ⟨hposition.1.congr hidsStack rfl rfl rfl, hid1 ▸ hposition.2⟩
    | second =>
      obtain ⟨hstack, hfirst, hright⟩ := hposition
      exact ⟨hstack.imp (·.congr hidsStack rfl rfl) (·.congr hidsStack rfl rfl rfl), hid1 ▸ hfirst,
        hdirection.trans hright⟩
    | typed =>
      obtain ⟨hstack, hfirst, hright, hsecond⟩ := hposition
      exact ⟨hstack.imp (·.congr hidsStack rfl rfl) (·.congr hidsStack rfl rfl rfl), hid1 ▸ hfirst,
        hdirection.trans hright, hid2 ▸ hsecond⟩
    | wrong => exact hposition

theorem follows_func (hjoins : action.role.joins p q = true) (h : Follows fresh p s c)
    (hread : c.read atof action str = some c')
    (hdepth : action.role = .implicit → str.length ≤ 1) :
    ∃ s', action.func atof str s = .ok s' ∧ Follows fresh q s' c' := by
  cases hrole : action.role with
  | first =>
    obtain ⟨rfl, rfl⟩ : p = .done ∧ q = .node := by simpa [hrole, Role.joins] using hjoins
    exact follows_first hrole h hread
  | implicit =>
    obtain ⟨rfl, rfl⟩ : p = .done ∧ q = .implicit := by simpa [hrole, Role.joins] using hjoins
    exact follows_implicit hrole h hread (hdepth hrole)
  | direction right =>
    obtain ⟨hp, rfl⟩ : (p = .node ∨ p = .implicit) ∧ q = .second := by
      simpa [hrole, Role.joins] using hjoins
    exact follows_direction hrole h hp hread
  | second =>
    obtain ⟨rfl, rfl⟩ : p = .second ∧ q = .typed := by simpa [hrole, Role.joins] using hjoins
    exact follows_second hrole h hread
  | edgeType =>
    obtain ⟨rfl, rfl⟩ : p = .typed ∧ q = .done := by simpa [hrole, Role.joins] using hjoins
    exact follows_edgeType hrole h hread
  | nodeEnd =>
    obtain ⟨rfl, rfl⟩ : p = .node ∧ q = .done := by simpa [hrole, Role.joins] using hjoins
    exact follows_nodeEnd hrole h hread
  | other =>
    obtain rfl : p = q := by simpa [hrole, Role.joins] using hjoins
    exact follows_other hrole h hread

end

section

variable {atof : Bytes → Nat} {lexeme : Lexeme} {lexemes : List Lexeme} {fresh : Prop}

theorem Naming.readTokens_nil {current next : State × Naming} :
    Naming.readTokens atof current [] = some next ↔ next = current := by
  simp [Naming.readTokens, eq_comm]

theorem Naming.readTokens_cons {current next : State × Naming} :
    Naming.readTokens atof current (lexeme :: lexemes) = some next ↔
      ∃ mid, Naming.readToken atof current lexeme = some mid ∧
        Naming.readTokens atof mid lexemes = some next := by
  unfold Naming.readTokens
  rw [List.foldlM_cons, Option.bind_eq_bind, Option.bind_eq_some_iff]

/-- What a token of a declared transition does, for what the text says and for the importer. -/
theorem joins_of_declared {σ τ : State} {c : Naming} {next : State × Naming} (hσ : σ ≠ .wrongLine)
    (hstep : DeclaredStep σ lexeme.token τ)
    (hread : Naming.readToken atof (σ, c) lexeme = some next) :
    next.1 = τ ∧ τ ≠ .wrongLine ∧ ∃ action : Action,
      getTransition createAutomata σ lexeme.token = some ⟨τ, action⟩ ∧
      action.role.joins σ.phase τ.phase = true ∧
      (action.role = .implicit ↔ lexeme.token = .implicit) ∧
      c.read atof action lexeme.str = some next.2 := by
  obtain ⟨slot, hslot, hvalue, hjoins, himplicit⟩ := slot_joins σ lexeme.token hσ hstep.declared
  have hτ : slot.value = τ := by
    have hnext : nextState σ lexeme.token = some τ := step_iff.mpr (.inl (.inl hstep))
    rw [nextState, hslot] at hnext
    exact Option.some.inj hnext
  subst hτ
  unfold Naming.readToken at hread
  rw [hslot, Option.bind_some, Option.map_eq_some_iff] at hread
  obtain ⟨c', hread, heq⟩ := hread
  subst heq
  exact ⟨rfl, hvalue, slot.func, hslot, hjoins, himplicit, hread⟩

theorem readToken_of_func {σ τ : State} {s s' : OnDiskImport} {action : Action}
    (hslot : getTransition createAutomata σ lexeme.token = some ⟨τ, action⟩)
    (hfunc : action.func atof lexeme.str s = .ok s') :
    readToken atof (σ, s) lexeme = .ok (τ, s') :=
  readToken_eq_ok.mpr ⟨_, hslot, hfunc, rfl⟩

theorem follows_readTokens {σ τ : State} {s : OnDiskImport} {c : Naming} {next : State × Naming}
    (hσ : σ ≠ .wrongLine) (h : Follows fresh σ.phase s c)
    (hrun : Run DeclaredStep σ (lexemes.map (·.token)) τ)
    (hread : Naming.readTokens atof (σ, c) lexemes = some next)
    (hdepth : ∀ lexeme ∈ lexemes, lexeme.token = .implicit → lexeme.str.length ≤ 1) :
    ∃ s', readTokens atof (σ, s) lexemes = .ok (τ, s') ∧ Follows fresh τ.phase s' next.2 := by
  induction lexemes generalizing σ s c with
  | nil =>
    obtain rfl := Run.nil_iff.mp hrun
    obtain rfl := Naming.readTokens_nil.mp hread
    exact ⟨s, readTokens_nil.mpr rfl, h⟩
  | cons lexeme lexemes ih =>
    obtain ⟨hlexeme, hlexemes⟩ := List.forall_mem_cons.mp hdepth
    obtain ⟨ρ, hstep, hrun⟩ := Run.cons_iff.mp hrun
    obtain ⟨mid, hmid, hread⟩ := Naming.readTokens_cons.mp hread
    obtain ⟨rfl, hρ, action, hslot, hjoins, himplicit, hnaming⟩ := joins_of_declared hσ hstep hmid
    obtain ⟨s', hfunc, hs'⟩ := follows_func hjoins h hnaming
      fun hrole => hlexeme (himplicit.mp hrole)
    obtain ⟨s'', hs'', hfollows⟩ := ih hρ hs' hrun hread hlexemes
    exact ⟨s'', readTokens_cons.mpr ⟨_, readToken_of_func hslot hfunc, hs''⟩, hfollows⟩

end

def Mismatch (s : OnDiskImport) (c : Naming) : Prop :=
  ∃ (i : Nat) (x : Named × Named × Nat × Nat) (e : Nat × Nat × Nat × Nat),
    c.edges[i]? = some x ∧ s.collected.edges[i]? = some e ∧ ¬ EdgeAgrees x e

structure Misled (p : Phase) (s : OnDiskImport) (c : Naming) : Prop where
  phase : p = .implicit ∨ p = .second ∨ p = .typed
  first : ∃ n, c.first = some n ∧ n ≠ s.id1
  edges : c.edges.length = s.collected.edges.length
  direction : p ≠ .implicit → s.direction = c.direction

section

variable {atof : Bytes → Nat} {str : Bytes} {s s' : OnDiskImport} {c c' : Naming}
  {action : Action} {p q : Phase} {lexeme : Lexeme} {lexemes : List Lexeme}

theorem Mismatch.append {es : List (Nat × Nat × Nat × Nat)} {xs : List (Named × Named × Nat × Nat)}
    (h : Mismatch s c) (hs : s'.collected.edges = s.collected.edges ++ es)
    (hc : c'.edges = c.edges ++ xs) : Mismatch s' c' := by
  obtain ⟨i, x, e, hx, he, hne⟩ := h
  refine ⟨i, x, e, ?_, ?_, hne⟩
  · rw [hc, List.getElem?_append_left (List.getElem?_eq_some_iff.mp hx).1, hx]
  · rw [hs, List.getElem?_append_left (List.getElem?_eq_some_iff.mp he).1, he]

theorem eq_of_map_eq_ok {α : Type} {x : Except String α} {f : α → OnDiskImport}
    (h : x.map f = .ok s') : ∃ a, s' = f a := by
  cases x with
  | error e => cases h
  | ok a => exact ⟨a, (Except.ok.inj h).symm⟩

theorem edges_func (hfunc : action.func atof str s = .ok s') :
    ∃ es, s'.collected.edges = s.collected.edges ++ es := by
  cases hrole : action.role with
  | first =>
    rw [func_first hrole] at hfunc
    obtain ⟨r, rfl⟩ := eq_of_map_eq_ok hfunc
    exact ⟨[], (List.append_nil _).symm⟩
  | second =>
    rw [func_second hrole] at hfunc
    obtain ⟨r, rfl⟩ := eq_of_map_eq_ok hfunc
    exact ⟨[], (List.append_nil _).symm⟩
  | edgeType =>
    obtain ⟨f, hf, hspec⟩ := func_edgeType atof str s hrole
    rw [hf] at hfunc
    obtain ⟨r, rfl⟩ := eq_of_map_eq_ok hfunc
    exact ⟨_, (hspec r).2.2.2.2⟩
  | other =>
    obtain ⟨f, hf, hspec⟩ := func_other atof str s hrole
    rw [hf] at hfunc
    obtain ⟨r, rfl⟩ := eq_of_map_eq_ok hfunc
    exact ⟨[], (hspec r).1.edges.trans (List.append_nil _).symm⟩
  | implicit =>
    cases action with
    | saveFirstIdImplicit =>
      have hcases : OnDiskImport.saveFirstIdImplicit str s = .ok s' := hfunc
      unfold OnDiskImport.saveFirstIdImplicit at hcases
      split_ifs at hcases <;> cases hcases <;> exact ⟨[], (List.append_nil _).symm⟩
    | _ => cases hrole
  | direction right =>
    cases action with
    | setLeftDirection | setRightDirection =>
      cases hfunc
      exact ⟨[], (List.append_nil _).symm⟩
    | _ => cases hrole
  | nodeEnd =>
    cases action with
    | finishNodeLine =>
      cases hfunc
      exact ⟨[], (List.append_nil _).symm⟩
    | _ => cases hrole

theorem edges_read (hread : c.read atof action str = some c') :
    ∃ xs, c'.edges = c.edges ++ xs := by
  obtain ⟨id, ids, hresolve⟩ := resolve_of_read hread
  rw [Naming.read, hresolve] at hread
  cases hrole : action.role with
  | implicit =>
    rw [hrole] at hread
    obtain ⟨x, -, rfl⟩ := Option.map_eq_some_iff.mp hread
    exact ⟨[], (List.append_nil _).symm⟩
  | edgeType =>
    rw [hrole] at hread
    cases hread
    exact ⟨_, rfl⟩
  | first | direction | second | nodeEnd | other =>
    rw [hrole] at hread
    cases hread
    exact ⟨[], (List.append_nil _).symm⟩

theorem Misled.step (h : Misled p s c) (hjoins : action.role.joins p q = true)
    (hread : c.read atof action str = some c') (hfunc : action.func atof str s = .ok s') :
    Mismatch s' c' ∨ Misled q s' c' := by
  obtain ⟨hphase, ⟨n, hfirst, hne⟩, hlength, hdirection⟩ := h
  obtain ⟨id, ids, hresolve⟩ := resolve_of_read hread
  rw [Naming.read, hresolve] at hread
  cases hrole : action.role with
  | first | implicit | nodeEnd =>
    rw [hrole] at hjoins
    rcases hphase with rfl | rfl | rfl <;> simp [Role.joins] at hjoins
  | direction right =>
    rw [hrole] at hread hjoins
    cases hread
    obtain ⟨-, rfl⟩ : (p = .node ∨ p = .implicit) ∧ q = .second := by
      simpa [Role.joins] using hjoins
    cases action with
    | setLeftDirection | setRightDirection =>
      cases hrole
      cases hfunc
      exact .inr ⟨.inr (.inl rfl), ⟨n, hfirst, hne⟩, hlength, fun _ => rfl⟩
    | _ => cases hrole
  | second =>
    rw [hrole] at hread hjoins
    cases hread
    obtain ⟨rfl, rfl⟩ : p = .second ∧ q = .typed := by simpa [Role.joins] using hjoins
    rw [func_second hrole] at hfunc
    obtain ⟨r, rfl⟩ := eq_of_map_eq_ok hfunc
    exact .inr ⟨.inr (.inr rfl), ⟨n, hfirst, hne⟩, hlength, fun _ => hdirection (by decide)⟩
  | other =>
    rw [hrole] at hread hjoins
    cases hread
    obtain rfl : p = q := by simpa [Role.joins] using hjoins
    obtain ⟨f, hf, hspec⟩ := func_other atof str s hrole
    rw [hf] at hfunc
    obtain ⟨r, rfl⟩ := eq_of_map_eq_ok hfunc
    have hsame := (hspec r).1
    refine .inr ⟨hphase, ⟨n, hfirst, hsame.id1 ▸ hne⟩, ?_, ?_⟩
    · rw [hsame.edges]
      exact hlength
    · rw [hsame.direction]
      exact hdirection
  | edgeType =>
    rw [hrole] at hread hjoins
    cases hread
    obtain ⟨rfl, rfl⟩ : p = .typed ∧ q = .done := by simpa [Role.joins] using hjoins
    obtain ⟨f, hf, hspec⟩ := func_edgeType atof str s hrole
    rw [hf] at hfunc
    obtain ⟨r, rfl⟩ := eq_of_map_eq_ok hfunc
    obtain ⟨-, -, -, -, hedges⟩ := hspec r
    refine .inl ⟨c.edges.length, _, edgeRecord s.direction s.id1 s.id2 (r.1.getD 0)
      ((s.edgeCount + 1) ||| ObjectId.maskEdge), List.getElem?_concat_length, ?_, ?_⟩
    · rw [hedges, hlength]
      exact List.getElem?_concat_length
    · rw [hdirection (by decide)]
      intro ⟨hfrom, hto, _⟩
      cases hright : c.direction with
      | true =>
        rw [hright] at hfrom
        exact hne (hfrom n hfirst)
      | false =>
        rw [hright] at hto
        exact hne (hto n hfirst)

/-- Whatever follows, a wrong first id in a file of complete lines ends up in an edge. -/
theorem mismatch_of_misled {σ τ : State} {next : State × Naming} (hσ : σ ≠ .wrongLine)
    (h : Mismatch s c ∨ Misled σ.phase s c)
    (hrun : Run DeclaredStep σ (lexemes.map (·.token)) τ)
    (hread : Naming.readTokens atof (σ, c) lexemes = some next)
    (hcode : readTokens atof (σ, s) lexemes = .ok (τ, s')) :
    Mismatch s' next.2 ∨ Misled τ.phase s' next.2 := by
  induction lexemes generalizing σ s c with
  | nil =>
    obtain rfl := Run.nil_iff.mp hrun
    obtain rfl := Naming.readTokens_nil.mp hread
    obtain ⟨-, rfl⟩ := Prod.ext_iff.mp (readTokens_nil.mp hcode)
    exact h
  | cons lexeme lexemes ih =>
    obtain ⟨ρ, hstep, hrun⟩ := Run.cons_iff.mp hrun
    obtain ⟨mid, hmid, hread⟩ := Naming.readTokens_cons.mp hread
    obtain ⟨mid', hmid', hcode⟩ := readTokens_cons.mp hcode
    obtain ⟨rfl, hρ, action, hslot, hjoins, himplicit, hnaming⟩ := joins_of_declared hσ hstep hmid
    obtain ⟨slot, hslot', hfunc, hvalue⟩ := readToken_eq_ok.mp hmid'
    obtain rfl := Option.some.inj (hslot.symm.trans hslot')
    have hmid'eq : mid' = (mid.1, mid'.2) := Prod.ext hvalue rfl
    rw [hmid'eq] at hcode
    refine ih hρ ?_ hrun hread hcode
    rcases h with h | h
    · obtain ⟨es, hes⟩ := edges_func hfunc
      obtain ⟨xs, hxs⟩ := edges_read hnaming
      exact .inl (h.append hes hxs)
    · exact h.step hjoins hnaming hfunc

theorem misled_of_depth (hrole : action.role = .implicit) (h : Follows True .done s c)
    (hread : c.read atof action str = some c') (hfunc : action.func atof str s = .ok s')
    (hdepth : 1 < str.length) : Misled .implicit s' c' := by
  obtain ⟨id, ids, hresolve⟩ := resolve_of_read hread
  rw [Naming.read, hrole, hresolve] at hread
  obtain ⟨x, hx, rfl⟩ := Option.map_eq_some_iff.mp hread
  have hlength : str.length = 2 := by
    by_contra hne
    rw [h.position.short str.length (by omega)] at hx
    cases hx
  rw [hlength] at hx
  obtain ⟨y, z, e, rfl, hstack, hne⟩ := h.position.second x hx
  cases action with
  | saveFirstIdImplicit =>
    have hcases : OnDiskImport.saveFirstIdImplicit str s = .ok s' := hfunc
    unfold OnDiskImport.saveFirstIdImplicit at hcases
    rw [hstack, hlength] at hcases
    cases hcases
    exact ⟨.inl rfl, ⟨e, rfl, (hne trivial).symm⟩, h.edges.length_eq, fun hp => absurd rfl hp⟩
  | _ => cases hrole

theorem mismatch_of_depth {σ τ : State} {next : State × Naming} (hσ : σ ≠ .wrongLine)
    (h : Follows True σ.phase s c) (hrun : Run DeclaredStep σ (lexemes.map (·.token)) τ)
    (hread : Naming.readTokens atof (σ, c) lexemes = some next)
    (hcode : readTokens atof (σ, s) lexemes = .ok (τ, s'))
    (hdepth : ∃ lexeme ∈ lexemes, lexeme.token = .implicit ∧ 1 < lexeme.str.length) :
    Mismatch s' next.2 ∨ Misled τ.phase s' next.2 := by
  induction lexemes generalizing σ s c with
  | nil =>
    obtain ⟨_, hmem, _⟩ := hdepth
    cases hmem
  | cons lexeme lexemes ih =>
    obtain ⟨ρ, hstep, hrun⟩ := Run.cons_iff.mp hrun
    obtain ⟨mid, hmid, hread⟩ := Naming.readTokens_cons.mp hread
    obtain ⟨mid', hmid', hcode⟩ := readTokens_cons.mp hcode
    obtain ⟨rfl, hρ, action, hslot, hjoins, himplicit, hnaming⟩ := joins_of_declared hσ hstep hmid
    obtain ⟨slot, hslot', hfunc, hvalue⟩ := readToken_eq_ok.mp hmid'
    obtain rfl := Option.some.inj (hslot.symm.trans hslot')
    have hmid'eq : mid' = (mid.1, mid'.2) := Prod.ext hvalue rfl
    rw [hmid'eq] at hcode
    by_cases hhead : action.role = .implicit ∧ 1 < lexeme.str.length
    · have hphases : σ.phase = .done ∧ mid.1.phase = .implicit := by
        simpa [hhead.1, Role.joins] using hjoins
      rw [hphases.1] at h
      have hmisled := misled_of_depth hhead.1 h hnaming hfunc hhead.2
      rw [← hphases.2] at hmisled
      exact mismatch_of_misled hρ (.inr hmisled) hrun hread hcode
    · obtain ⟨s'', hs'', hfollows⟩ := follows_func hjoins h hnaming fun hrole => by
        by_contra hlong
        exact hhead ⟨hrole, by omega⟩
      obtain rfl := Except.ok.inj (hfunc.symm.trans hs'')
      refine ih hρ hfollows hrun hread hcode ?_
      obtain ⟨l, hl, htoken, hlong⟩ := hdepth
      rcases List.mem_cons.mp hl with rfl | hl
      · exact absurd ⟨himplicit.mpr htoken, hlong⟩ hhead
      · exact ⟨l, hl, htoken, hlong⟩

end

def named (edge : Nat × Nat × Nat × Nat) : Named × Named × Nat × Nat :=
  (some edge.1, some edge.2.1, edge.2.2)

/-- A file of complete lines along declared transitions, in which every implicit id stands for
something. -/
structure WellFormed (hash : Bytes → UInt64) (atof : Bytes → Nat) (lexemes : List Lexeme) (c : Naming) : Prop where
  lines : Run DeclaredStep .lineBegin (lexemes.map (·.token)) .lineBegin
  names : Naming.readTokens atof (.lineBegin, .start hash) lexemes = some (.lineBegin, c)

/-- Whatever the uninitialized members hold, the file is imported with the edges that it names. -/
def ImportsNamed (hash : Bytes → UInt64) (atof : Bytes → Nat) (lexemes : List Lexeme) (c : Naming) :
    Prop :=
  ∀ id1 id2 typeId edgeId keyId direction, ∃ next,
    readTokens atof (.lineBegin, .start hash id1 id2 typeId edgeId keyId direction) lexemes = .ok next ∧
      next.2.collected.edges.map named = c.edges

section

variable {hash : Bytes → UInt64} {atof : Bytes → Nat} {lexemes : List Lexeme} {c : Naming}
  {s : OnDiskImport}

theorem follows_start {fresh : Prop} {id1 id2 typeId edgeId keyId : Nat} {direction : Bool}
    (hfresh : fresh → edgeId ≠ edgeName 1) :
    Follows fresh .done (.start hash id1 id2 typeId edgeId keyId direction) (.start hash) where
  ids := rfl
  edgeCount := rfl
  zero := rfl
  edges := .nil
  edgeId := hfresh
  position := by
    refine ⟨?_, ?_, fun k _ => rfl⟩ <;>
      · intro x hx
        cases hx

theorem not_mismatch (h : s.collected.edges.map named = c.edges) : ¬ Mismatch s c := by
  intro ⟨i, x, e, hx, he, hne⟩
  rw [← h, List.getElem?_map, he] at hx
  cases hx
  exact hne ⟨fun _ hn => (Option.some.inj hn).symm, fun _ hn => (Option.some.inj hn).symm, rfl⟩

theorem map_named_of_agrees {xs : List (Named × Named × Nat × Nat)}
    {es : List (Nat × Nat × Nat × Nat)} (h : List.Forall₂ EdgeAgrees xs es)
    (hxs : ∀ x ∈ xs, x.1 ≠ none ∧ x.2.1 ≠ none) : es.map named = xs := by
  induction h with
  | nil => rfl
  | @cons x e xs es hx _ ih =>
    obtain ⟨⟨hfrom, hto⟩, hxs⟩ := List.forall_mem_cons.mp hxs
    obtain ⟨n, hn⟩ := Option.ne_none_iff_exists'.mp hfrom
    obtain ⟨m, hm⟩ := Option.ne_none_iff_exists'.mp hto
    rw [List.map_cons, ih hxs]
    congr 1
    exact Prod.ext (by rw [hn, hx.1 n hn]; rfl)
      (Prod.ext (by rw [hm, hx.2.1 m hm]; rfl) hx.2.2.symm)

/-- The edges of a well-formed file get the ends that the text names exactly when no implicit id
is deeper than 1 and no end is an IRI. -/
theorem importsNamed_iff (atof : Bytes → Nat) (lexemes : List Lexeme) (c : Naming)
    (h : WellFormed hash atof lexemes c) : ImportsNamed hash atof lexemes c ↔
      (∀ lexeme ∈ lexemes, lexeme.token = .implicit → lexeme.str.length ≤ 1) ∧
        ∀ x ∈ c.edges, x.1 ≠ none ∧ x.2.1 ≠ none := by
  constructor
  · intro himports
    obtain ⟨next, hread, hedges⟩ := himports 0 0 0 0 0 true
    constructor
    · by_contra hdeep
      push Not at hdeep
      obtain ⟨s', hfollows⟩ : ∃ s', next = (.lineBegin, s') := by
        have hrun := run_of_readTokens hread
        have hlines : Run Step .lineBegin (lexemes.map (·.token)) .lineBegin :=
          h.lines.mono fun _ _ _ hstep => step_iff.mpr (.inl (.inl hstep))
        have hstate := hrun.unique (fun _ _ _ _ h h' => Option.some.inj (h.symm.trans h')) hlines
        exact ⟨next.2, Prod.ext hstate rfl⟩
      subst hfollows
      have hstart : Follows True State.lineBegin.phase (.start hash 0 0 0 0 0 true)
          (.start hash) := follows_start fun _ => by decide
      rcases mismatch_of_depth (by decide) hstart h.lines h.names hread hdeep with hne | hne
      · exact not_mismatch hedges hne
      · rcases hne.phase with hp | hp | hp <;> cases hp
    · intro x hx
      rw [← hedges] at hx
      obtain ⟨e, -, rfl⟩ := List.mem_map.mp hx
      exact ⟨Option.some_ne_none _, Option.some_ne_none _⟩
  · intro ⟨hdepth, hnamed⟩ id1 id2 typeId edgeId keyId direction
    have hstart : Follows False State.lineBegin.phase
        (.start hash id1 id2 typeId edgeId keyId direction) (.start hash) := follows_start False.elim
    obtain ⟨s', hread, hfollows⟩ :=
      follows_readTokens (by decide) hstart h.lines h.names hdepth
    exact ⟨_, hread, map_named_of_agrees hfollows.edges hnamed⟩

end

def identifierLexeme (byte : UInt8) : Lexeme := ⟨.identifier, [byte]⟩

/-- The tokens of `->`, an identifier, `:` and a type, up to the end of the line. -/
def edgeLexemes (second type : UInt8) : List Lexeme :=
  [⟨.rArrow, [45, 62]⟩, identifierLexeme second, ⟨.colon, [58]⟩, identifierLexeme type,
    ⟨.endline, [10]⟩]

/-- `A->B :t` with `@->C :t` below it. -/
def chainOfOne : List Lexeme :=
  identifierLexeme 65 :: edgeLexemes 66 116 ++ ⟨.implicit, [64]⟩ :: edgeLexemes 67 116

/-- The same with `@@->D :t` below. -/
def chainOfTwo : List Lexeme := chainOfOne ++ ⟨.implicit, [64, 64]⟩ :: edgeLexemes 68 116

def letterId (byte : UInt8) : Nat := Inliner.inlineString [byte]

theorem exists_wellFormed (hash : Bytes → UInt64) (atof : Bytes → Nat) {lexemes : List Lexeme}
    (edges : List (Named × Named × Nat × Nat))
    (hlines : (lexemes.map (·.token)).foldlM declaredNext State.lineBegin = some .lineBegin)
    (hnames : (Naming.readTokens atof (.lineBegin, .start hash) lexemes).map
      (fun next => (next.1, next.2.edges)) = some (.lineBegin, edges)) :
    ∃ c, WellFormed hash atof lexemes c ∧ c.edges = edges := by
  obtain ⟨next, hnext, heq⟩ := Option.map_eq_some_iff.mp hnames
  obtain ⟨hstate, hedges⟩ := Prod.ext_iff.mp heq
  refine ⟨next.2, ⟨Run.of_foldlM hlines, ?_⟩, hedges⟩
  rw [hnext]
  exact congrArg some (Prod.ext hstate rfl)

theorem importsNamed_chainOfOne : ∃ c, WellFormed (fun _ => 0) (fun _ => 0) chainOfOne c ∧
    (ImportsNamed (fun _ => 0) (fun _ => 0) chainOfOne c ↔
      (∀ lexeme ∈ chainOfOne, lexeme.token = .implicit → lexeme.str.length ≤ 1) ∧
        ∀ x ∈ c.edges, x.1 ≠ none ∧ x.2.1 ≠ none) := by
  obtain ⟨c, h, -⟩ := exists_wellFormed (fun _ => 0) (fun _ => 0)
    [(some (letterId 65), some (letterId 66), letterId 116, edgeName 1),
      (some (edgeName 1), some (letterId 67), letterId 116, edgeName 2)]
    (show (chainOfOne.map (·.token)).foldlM declaredNext State.lineBegin = _ by decide +kernel)
    (by decide +kernel)
  exact ⟨c, h, importsNamed_iff (fun _ => 0) chainOfOne c h⟩

/-- For `@@` the importer takes the edge of the explicit line, not the one below it. -/
theorem not_importsNamed : ¬ ∀ (hash : Bytes → UInt64) (atof : Bytes → Nat) (lexemes : List Lexeme)
    (c : Naming), WellFormed hash atof lexemes c → ImportsNamed hash atof lexemes c := by
  intro h
  obtain ⟨c, hwell, hedges⟩ := exists_wellFormed (fun _ => 0) (fun _ => 0)
    [(some (letterId 65), some (letterId 66), letterId 116, edgeName 1),
      (some (edgeName 1), some (letterId 67), letterId 116, edgeName 2),
      (some (edgeName 2), some (letterId 68), letterId 116, edgeName 3)]
    (show (chainOfTwo.map (·.token)).foldlM declaredNext State.lineBegin = _ by decide +kernel)
    (by decide +kernel)
  obtain ⟨next, hread, hnamed⟩ := h _ _ _ c hwell 0 0 0 0 0 true
  have hcode : (readTokens (fun _ => 0) (.lineBegin, .start (fun _ => 0) 0 0 0 0 0 true) chainOfTwo).map
      (·.2.collected.edges) =
        .ok [(letterId 65, letterId 66, letterId 116, edgeName 1),
          (edgeName 1, letterId 67, letterId 116, edgeName 2),
          (edgeName 1, letterId 68, letterId 116, edgeName 3)] := by
    decide +kernel
  rw [hread] at hcode
  have hlist : next.2.collected.edges = _ := Except.ok.inj hcode
  rw [hlist, hedges] at hnamed
  revert hnamed
  decide

end Import
end MillenniumDB
