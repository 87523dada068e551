import MillenniumDB.ImportAutomaton
import MillenniumDB.ObjectIds

/-!
# The quad-model import

`OnDiskImport` runs a member function on every transition of its automaton.  The functions
resolve the texts of tokens to ids, and they append records to the collections that the indexes
are built from.
-/

namespace MillenniumDB
namespace Import

structure Collections where
  declaredNodes : List Nat
  labels : List (Nat × Nat)
  properties : List (Nat × Nat × Nat)
  edges : List (Nat × Nat × Nat × Nat)
  equalFromTo : List (Nat × Nat × Nat)
  equalFromType : List (Nat × Nat × Nat)
  equalToType : List (Nat × Nat × Nat)
  equalFromToType : List (Nat × Nat)
  deriving DecidableEq

def Collections.empty : Collections := ⟨[], [], [], [], [], [], [], []⟩

structure Ids where
  externalStrings : ExternalStrings
  anonymousNodesCount : Nat

structure OnDiskImport where
  currentLine : Nat
  id1 : Nat
  id2 : Nat
  typeId : Nat
  edgeId : Nat
  keyId : Nat
  edgeCount : Nat
  idsStack : List Nat
  direction : Bool
  ids : Ids
  type2totalCount : Nat → Nat
  collected : Collections

/-- The importer before the first token.  The constructor leaves the members for ids and the
direction uninitialized. -/
def OnDiskImport.start (hash : Bytes → UInt64) (id1 id2 typeId edgeId keyId : Nat) (direction : Bool) :
    OnDiskImport where
  currentLine := 1
  id1 := id1
  id2 := id2
  typeId := typeId
  edgeId := edgeId
  keyId := keyId
  edgeCount := 0
  idsStack := []
  direction := direction
  ids := ⟨.empty hash, 0⟩
  type2totalCount := fun _ => 0
  collected := .empty

abbrev Resolver := Bytes → Ids → Except String (Nat × Ids)

def stringResolver (maskInlined maskExtern : Nat) : Resolver := fun str ids =>
  let resolved := ids.externalStrings.stringId maskInlined maskExtern str
  .ok (resolved.1, { ids with externalStrings := resolved.2 })

def identifierId : Resolver :=
  stringResolver ObjectId.maskNamedNodeInlined ObjectId.maskNamedNodeExtern

/-- What stands for a byte after a backslash: a quote, a backslash, a newline, a tab or a
carriage return. -/
def escaped (byte : UInt8) : Option UInt8 :=
  if byte = 34 then some 34
  else if byte = 92 then some 92
  else if byte = 110 then some 10
  else if byte = 116 then some 9
  else if byte = 114 then some 13
  else none

/-- The loop of `normalize_string_literal`; an unknown escape sequence stays as it is. -/
def unescape : Bytes → Bytes
  | [] => []
  | [byte] => [byte]
  | byte :: next :: str =>
    if byte = 92 then
      match escaped next with
      | some c => c :: unescape str
      | none => byte :: next :: unescape str
    else byte :: unescape (next :: str)

/-- `normalize_string_literal`: what stands between the quotes. -/
def normalizeStringLiteral (str : Bytes) : Bytes := unescape (str.drop 1).dropLast

def stringId : Resolver := stringResolver ObjectId.maskStringInlined ObjectId.maskStringExtern

def stringLiteralId : Resolver := fun str => stringId (normalizeStringLiteral str)

def anonId : Resolver := fun str ids => do
  let unmaskedId ← stoull (str.drop 2)
  return (unmaskedId ||| ObjectId.maskAnon,
    { ids with anonymousNodesCount := max ids.anonymousNodesCount unmaskedId })

def intId : Resolver := fun str ids => do
  let id ← Inliner.inlineInt (atoll str)
  return (id, ids)

/-- The bits of a float are those that `atof` finds. -/
def floatId (atof : Bytes → Nat) : Resolver := fun str ids =>
  .ok (Inliner.inlineFloat (atof str), ids)

def trueId : Resolver := fun _ ids => .ok (ObjectId.maskBool ||| 1, ids)
def falseId : Resolver := fun _ ids => .ok (ObjectId.maskBool ||| 0, ids)

namespace OnDiskImport

abbrev Func := Bytes → OnDiskImport → Except String OnDiskImport

def doNothing : Func := fun _ s => .ok s
def setLeftDirection : Func := fun _ s => .ok { s with direction := false }
def setRightDirection : Func := fun _ s => .ok { s with direction := true }

def saveFirstId (resolve : Resolver) : Func := fun str s => do
  let (id, ids) ← resolve str s.ids
  return { s with idsStack := [], id1 := id, ids := ids }

def saveFirstIdIdentifier : Func := saveFirstId identifierId
def saveFirstIdAnon : Func := saveFirstId anonId
def saveFirstIdString : Func := saveFirstId stringLiteralId
def saveFirstIdIri : Func := fun _ s => .ok { s with idsStack := [] }
def saveFirstIdInt : Func := saveFirstId intId
def saveFirstIdFloat (atof : Bytes → Nat) : Func := saveFirstId (floatId atof)
def saveFirstIdTrue : Func := saveFirstId trueId
def saveFirstIdFalse : Func := saveFirstId falseId

def lineError (s : OnDiskImport) (message : String) : String :=
  "[line " ++ toString s.currentLine ++ "] " ++ message

def saveFirstIdImplicit : Func := fun str s =>
  if s.idsStack.length = 0 then
    .error (s.lineError "can't use implicit edge on undefined object")
  else if str.length < s.idsStack.length then
    .ok { s with
      id1 := s.idsStack.getD (str.length - 1) 0
      idsStack := s.idsStack.take str.length ++ [s.edgeId] }
  else if str.length = s.idsStack.length then
    .ok { s with
      id1 := s.idsStack.getD (str.length - 1) 0
      idsStack := s.idsStack ++ [s.edgeId] }
  else .error (s.lineError "undefined level of implicit edge")

def pushEdge (id1 id2 typeId edgeId : Nat) (direction : Bool) (c : Collections) : Collections :=
  { c with
    edges := c.edges ++ [if direction then (id1, id2, typeId, edgeId)
      else (id2, id1, typeId, edgeId)]
    equalFromTo := c.equalFromTo ++ if id1 = id2 then [(id1, typeId, edgeId)] else []
    equalFromToType := c.equalFromToType ++
      if id1 = id2 ∧ id1 = typeId then [(id1, edgeId)] else []
    equalFromType := c.equalFromType ++
      (if id1 = typeId ∧ direction then [(id1, id2, edgeId)] else []) ++
      if id2 = typeId ∧ !direction then [(id1, id2, edgeId)] else []
    equalToType := c.equalToType ++
      (if id1 = typeId ∧ !direction then [(id1, id2, edgeId)] else []) ++
      if id2 = typeId ∧ direction then [(id1, id2, edgeId)] else [] }

def saveEdgeType : Func := fun str s => do
  let (typeId, ids) ← identifierId str s.ids
  let edgeCount := s.edgeCount + 1
  let edgeId := edgeCount ||| ObjectId.maskEdge
  return { s with
    typeId := typeId
    ids := ids
    type2totalCount := Function.update s.type2totalCount typeId (s.type2totalCount typeId + 1)
    edgeCount := edgeCount
    edgeId := edgeId
    collected := pushEdge s.id1 s.id2 typeId edgeId s.direction s.collected
    idsStack := s.idsStack ++ [edgeId] }

def savePropKey : Func := fun str s => do
  let (id, ids) ← stringId str s.ids
  return { s with keyId := id, ids := ids }

def saveSecondId (resolve : Resolver) : Func := fun str s => do
  let (id, ids) ← resolve str s.ids
  return { s with id2 := id, ids := ids }

def saveSecondIdIdentifier : Func := saveSecondId identifierId
def saveSecondIdAnon : Func := saveSecondId anonId
def saveSecondIdString : Func := saveSecondId stringLiteralId
def saveSecondIdIri : Func := fun _ s => .ok s
def saveSecondIdInt : Func := saveSecondId intId
def saveSecondIdFloat (atof : Bytes → Nat) : Func := saveSecondId (floatId atof)
def saveSecondIdTrue : Func := saveSecondId trueId
def saveSecondIdFalse : Func := saveSecondId falseId

def addNodeLabel : Func := fun str s => do
  let (labelId, ids) ← stringId str s.ids
  return { s with
    ids := ids
    collected := { s.collected with labels := s.collected.labels ++ [(s.id1, labelId)] } }

def addProp (object : OnDiskImport → Nat) (resolve : Resolver) : Func := fun str s => do
  let (valueId, ids) ← resolve str s.ids
  return { s with
    ids := ids
    collected := { s.collected with
      properties := s.collected.properties ++ [(object s, s.keyId, valueId)] } }

def addNodePropString : Func := addProp id1 stringLiteralId
def addNodePropInt : Func := addProp id1 intId
def addNodePropFloat (atof : Bytes → Nat) : Func := addProp id1 (floatId atof)
def addNodePropTrue : Func := addProp id1 trueId
def addNodePropFalse : Func := addProp id1 falseId

def addEdgePropString : Func := addProp edgeId stringLiteralId
def addEdgePropInt : Func := addProp edgeId intId
def addEdgePropFloat (atof : Bytes → Nat) : Func := addProp edgeId (floatId atof)
def addEdgePropTrue : Func := addProp edgeId trueId
def addEdgePropFalse : Func := addProp edgeId falseId

def finishWrongLine : Func := fun _ s => .ok { s with currentLine := s.currentLine + 1 }

def finishNodeLine : Func := fun _ s => .ok { s with
  collected := { s.collected with declaredNodes := s.collected.declaredNodes ++ [s.id1] }
  idsStack := s.idsStack ++ [s.id1]
  currentLine := s.currentLine + 1 }

def finishEdgeLine : Func := fun _ s => .ok { s with currentLine := s.currentLine + 1 }

def printError : Func := fun _ s => .ok s

end OnDiskImport

open OnDiskImport in
/-- The function that an element of `state_funcs` is bound to. -/
def Action.func (atof : Bytes → Nat) : Action → OnDiskImport.Func
  | doNothing => OnDiskImport.doNothing
  | setLeftDirection => OnDiskImport.setLeftDirection
  | setRightDirection => OnDiskImport.setRightDirection
  | saveFirstIdIdentifier => OnDiskImport.saveFirstIdIdentifier
  | saveFirstIdAnon => OnDiskImport.saveFirstIdAnon
  | saveFirstIdString => OnDiskImport.saveFirstIdString
  | saveFirstIdIri => OnDiskImport.saveFirstIdIri
  | saveFirstIdInt => OnDiskImport.saveFirstIdInt
  | saveFirstIdFloat => OnDiskImport.saveFirstIdFloat atof
  | saveFirstIdTrue => OnDiskImport.saveFirstIdTrue
  | saveFirstIdFalse => OnDiskImport.saveFirstIdFalse
  | saveFirstIdImplicit => OnDiskImport.saveFirstIdImplicit
  | saveEdgeType => OnDiskImport.saveEdgeType
  | savePropKey => OnDiskImport.savePropKey
  | saveSecondIdIdentifier => OnDiskImport.saveSecondIdIdentifier
  | saveSecondIdAnon => OnDiskImport.saveSecondIdAnon
  | saveSecondIdString => OnDiskImport.saveSecondIdString
  | saveSecondIdIri => OnDiskImport.saveSecondIdIri
  | saveSecondIdInt => OnDiskImport.saveSecondIdInt
  | saveSecondIdFloat => OnDiskImport.saveSecondIdFloat atof
  | saveSecondIdTrue => OnDiskImport.saveSecondIdTrue
  | saveSecondIdFalse => OnDiskImport.saveSecondIdFalse
  | addNodeLabel => OnDiskImport.addNodeLabel
  | addNodePropString => OnDiskImport.addNodePropString
  | addNodePropInt => OnDiskImport.addNodePropInt
  | addNodePropFloat => OnDiskImport.addNodePropFloat atof
  | addNodePropTrue => OnDiskImport.addNodePropTrue
  | addNodePropFalse => OnDiskImport.addNodePropFalse
  | addEdgePropString => OnDiskImport.addEdgePropString
  | addEdgePropInt => OnDiskImport.addEdgePropInt
  | addEdgePropFloat => OnDiskImport.addEdgePropFloat atof
  | addEdgePropTrue => OnDiskImport.addEdgePropTrue
  | addEdgePropFalse => OnDiskImport.addEdgePropFalse
  | finishWrongLine => OnDiskImport.finishWrongLine
  | finishNodeLine => OnDiskImport.finishNodeLine
  | finishEdgeLine => OnDiskImport.finishEdgeLine
  | printError => OnDiskImport.printError

structure Lexeme where
  token : Token
  str : Bytes

/-- One round of the loop of `start_import`: the function of the transition runs, and the state
moves on.  A slot that was never written holds no function. -/
def readToken (atof : Bytes → Nat) (current : State × OnDiskImport) (lexeme : Lexeme) :
    Except String (State × OnDiskImport) :=
  match getTransition createAutomata current.1 lexeme.token with
  | none => .error "bad_function_call"
  | some slot => do
    let s ← slot.func.func atof lexeme.str current.2
    return (slot.value, s)

def readTokens (atof : Bytes → Nat) (current : State × OnDiskImport) (lexemes : List Lexeme) :
    Except String (State × OnDiskImport) :=
  lexemes.foldlM (readToken atof) current

section

variable {atof : Bytes → Nat} {current next : State × OnDiskImport} {lexeme : Lexeme}
  {lexemes : List Lexeme}

theorem readToken_eq_ok : readToken atof current lexeme = .ok next ↔
    ∃ slot, getTransition createAutomata current.1 lexeme.token = some slot ∧
      slot.func.func atof lexeme.str current.2 = .ok next.2 ∧ next.1 = slot.value := by
  unfold readToken
  cases getTransition createAutomata current.1 lexeme.token with
  | none => simp
  | some slot =>
    cases h : slot.func.func atof lexeme.str current.2 with
    | error e => simp [h, Bind.bind, Except.bind]
    | ok s =>
      simp [h, Bind.bind, Except.bind, Pure.pure, Except.pure, Prod.ext_iff, eq_comm, and_comm]

theorem readTokens_nil : readTokens atof current [] = .ok next ↔ next = current := by
  simp [readTokens, Pure.pure, Except.pure, eq_comm]

theorem readTokens_cons : readTokens atof current (lexeme :: lexemes) = .ok next ↔
    ∃ mid, readToken atof current lexeme = .ok mid ∧ readTokens atof mid lexemes = .ok next := by
  unfold readTokens
  rw [List.foldlM_cons]
  cases readToken atof current lexeme <;> simp [Bind.bind, Except.bind]

theorem readTokens_append {lexemes' : List Lexeme} :
    readTokens atof current (lexemes ++ lexemes') = .ok next ↔
      ∃ mid, readTokens atof current lexemes = .ok mid ∧ readTokens atof mid lexemes' = .ok next := by
  unfold readTokens
  rw [List.foldlM_append]
  cases lexemes.foldlM (readToken atof) current <;> simp [Bind.bind, Except.bind]

theorem step_of_readToken (h : readToken atof current lexeme = .ok next) :
    Step current.1 lexeme.token next.1 := by
  obtain ⟨slot, hslot, -, hvalue⟩ := readToken_eq_ok.mp h
  rw [Step, nextState, hslot, hvalue]
  rfl

theorem run_of_readTokens (h : readTokens atof current lexemes = .ok next) :
    Run Step current.1 (lexemes.map (·.token)) next.1 := by
  induction lexemes generalizing current with
  | nil =>
    obtain rfl := readTokens_nil.mp h
    exact .nil _
  | cons lexeme lexemes ih =>
    obtain ⟨mid, hmid, h⟩ := readTokens_cons.mp h
    exact .cons (step_of_readToken hmid) (ih h)

end

section

variable {atof : Bytes → Nat} {resolve : Resolver} {object : OnDiskImport → Nat} {str : Bytes}
  {s s' : OnDiskImport}

namespace OnDiskImport

theorem saveFirstId_eq_ok : saveFirstId resolve str s = .ok s' ↔ ∃ id ids,
    resolve str s.ids = .ok (id, ids) ∧ s' = { s with idsStack := [], id1 := id, ids := ids } := by
  unfold saveFirstId
  cases resolve str s.ids with
  | error e => simp [Bind.bind, Except.bind]
  | ok r => simp [Bind.bind, Except.bind, Pure.pure, Except.pure, Prod.ext_iff, eq_comm]

theorem saveSecondId_eq_ok : saveSecondId resolve str s = .ok s' ↔ ∃ id ids,
    resolve str s.ids = .ok (id, ids) ∧ s' = { s with id2 := id, ids := ids } := by
  unfold saveSecondId
  cases resolve str s.ids with
  | error e => simp [Bind.bind, Except.bind]
  | ok r => simp [Bind.bind, Except.bind, Pure.pure, Except.pure, Prod.ext_iff, eq_comm]

theorem addProp_eq_ok : addProp object resolve str s = .ok s' ↔ ∃ id ids,
    resolve str s.ids = .ok (id, ids) ∧ s' = { s with
      ids := ids
      collected := { s.collected with
        properties := s.collected.properties ++ [(object s, s.keyId, id)] } } := by
  unfold addProp
  cases resolve str s.ids with
  | error e => simp [Bind.bind, Except.bind]
  | ok r => simp [Bind.bind, Except.bind, Pure.pure, Except.pure, Prod.ext_iff, eq_comm]

end OnDiskImport
end

end Import
end MillenniumDB
