import MillenniumDB.GraphPatterns
import MillenniumDB.Lib.WellDesigned
import Mathlib.Algebra.Group.Int.Defs

/-!
# Patterns as they are parsed

The parse trees of MATCH patterns, the `QueryVisitor` that builds basic graph patterns and
optionals from them, and `CheckWellDesigned`.  The visitor numbers the anonymous variables and
remembers the variables that may be isolated.
-/

namespace MillenniumDB
namespace Parser

open Match (PathSemantic)

/-- A token `VARIABLE` without its question mark: a letter, then letters, digits and `_`. -/
structure VarName where
  first : Char
  rest : List Char
  letter : first.isAlpha
  word : ∀ c ∈ rest, c.isAlphanum ∨ c = '_'
  deriving DecidableEq

/-- The variable of an element: one of the query, or `"?_" + std::to_string(n)`. -/
inductive ElementVar
  | named (name : VarName)
  | anon (n : Nat)
  deriving DecidableEq

/-- `Var`: an element, or the value of one of its properties. -/
inductive Var
  | element (x : ElementVar)
  | property (x : ElementVar) (key : String)
  deriving DecidableEq

def ElementVar.name : ElementVar → List Char
  | named x => '?' :: x.first :: x.rest
  | anon n => '?' :: '_' :: Nat.toDigits 10 n

theorem ElementVar.name_injective : Function.Injective ElementVar.name := by
  intro x y h
  cases x with
  | named x =>
    cases y with
    | named y =>
      simp only [name, List.cons.injEq, true_and] at h
      obtain ⟨first, rest, letter, word⟩ := x
      obtain ⟨hfirst, hrest⟩ := h
      subst hfirst hrest
      rfl
    | anon n =>
      simp only [name, List.cons.injEq, true_and] at h
      exact absurd (h.1 ▸ x.letter) (by decide)
  | anon n =>
    cases y with
    | named y =>
      simp only [name, List.cons.injEq, true_and] at h
      exact absurd (h.1 ▸ y.letter) (by decide)
    | anon m =>
      simp only [name, List.cons.injEq, true_and] at h
      have := congrArg (Nat.ofDigitChars 10 · 0) h
      simpa using this

/-- The text of a fixed node, of a type or of a value.  A `word` is an identifier or one of the
keywords for booleans. -/
inductive Term
  | word (text : String)
  | anonId (n : Nat)
  | edgeId (n : Nat)
  | string (text : String)
  | integer (value : Int)
  | float (text : String)

inductive Element
  | var (x : ElementVar)
  | term (t : Term)

/-- `QueryElement`; `R` has the floats as `==` compares them. -/
inductive QueryElement (R : Type)
  | var (x : ElementVar)
  | namedNode (name : String)
  | anonymousNode (id : Nat)
  | edge (id : Nat)
  | string (text : String)
  | bool (value : Bool)
  | int (value : Int)
  | float (value : R)
  deriving DecidableEq

/-- What the visitor throws: `std::out_of_range`, or the exception of `add_property`. -/
inductive QueryException (R : Type)
  | outOfRange
  | differentValues (node : QueryElement R) (key : String)

def stoi {R : Type} (n : Nat) : Except (QueryException R) Nat :=
  if n < 2 ^ 31 then .ok n else .error .outOfRange

def stol {R : Type} (value : Int) : Except (QueryException R) Int :=
  if -2 ^ 63 ≤ value ∧ value < 2 ^ 63 then .ok value else .error .outOfRange

/-- `std::stoul`, and the conversion to `unsigned`. -/
def stoul {R : Type} (n : Nat) : Except (QueryException R) Nat :=
  if n < 2 ^ 64 then .ok (n % 2 ^ 32) else .error .outOfRange

section deduce

variable {R : Type} (stof : String → Option R)

/-- `QueryElement::deduce`; `stof` has no result for a text that is out of range. -/
def deduce : Element → Except (QueryException R) (QueryElement R)
  | .var x => .ok (.var x)
  | .term (.word text) =>
    .ok (if text = "true" then .bool true
      else if text = "false" then .bool false
      else .namedNode text)
  | .term (.anonId n) => .anonymousNode <$> stoi n
  | .term (.edgeId n) => .edge <$> stoi n
  | .term (.string text) => .ok (.string text)
  | .term (.integer value) => .int <$> stol value
  | .term (.float text) =>
    match stof text with
    | some value => .ok (.float value)
    | none => .error .outOfRange

end deduce

/-- `is_var` with `to_var`. -/
def QueryElement.vars {R : Type} : QueryElement R → List ElementVar
  | .var x => [x]
  | _ => []

structure OpLabel (R : Type) where
  node : QueryElement R
  label : String
  deriving DecidableEq

structure OpProperty (R : Type) where
  node : QueryElement R
  key : String
  value : QueryElement R
  deriving DecidableEq

structure OpEdge (R : Type) where
  source : QueryElement R
  target : QueryElement R
  type : QueryElement R
  edge : QueryElement R
  deriving DecidableEq

structure OpPath (R : Type) where
  var : ElementVar
  source : QueryElement R
  target : QueryElement R
  semantic : PathSemantic
  path : IPath

/-- `OpBasicGraphPattern`; the sets are lists. -/
structure OpBasicGraphPattern (R : Type) where
  labels : List (OpLabel R)
  properties : List (OpProperty R)
  edges : List (OpEdge R)
  paths : List (OpPath R)
  isolatedVars : List Var
  isolatedTerms : List (QueryElement R)
  vars : List Var

namespace OpBasicGraphPattern

variable {R : Type} [DecidableEq R]

def empty : OpBasicGraphPattern R := ⟨[], [], [], [], [], [], []⟩

def insertVars (vars : List Var) (op : OpBasicGraphPattern R) : OpBasicGraphPattern R :=
  { op with vars := vars ∪ op.vars }

def addLabel (l : OpLabel R) (op : OpBasicGraphPattern R) : OpBasicGraphPattern R :=
  { op.insertVars (l.node.vars.map .element) with labels := op.labels.insert l }

/-- `add_property`: the properties of a set have different nodes or keys. -/
def addProperty (p : OpProperty R) (op : OpBasicGraphPattern R) :
    Except (QueryException R) (OpBasicGraphPattern R) :=
  match op.properties.find? fun q => q.node = p.node ∧ q.key = p.key with
  | some old =>
    if old.value ≠ p.value then .error (.differentValues p.node p.key) else .ok op
  | none =>
    .ok { op.insertVars (p.node.vars.flatMap fun x => [.element x, .property x p.key]) with
      properties := p :: op.properties }

def addEdge (e : OpEdge R) (op : OpBasicGraphPattern R) : OpBasicGraphPattern R :=
  { op.insertVars ((e.source.vars ++ e.target.vars ++ e.type.vars ++ e.edge.vars).map .element) with
    edges := op.edges.insert e }

def addPath (p : OpPath R) (op : OpBasicGraphPattern R) : OpBasicGraphPattern R :=
  { op.insertVars ((p.source.vars ++ p.target.vars ++ [p.var]).map .element) with
    paths := p :: op.paths }

def addIsolatedVar (x : Var) (op : OpBasicGraphPattern R) : OpBasicGraphPattern R :=
  { op.insertVars [x] with isolatedVars := op.isolatedVars.insert x }

def tryAddPossibleIsolatedVar (op : OpBasicGraphPattern R) (x : Var) : OpBasicGraphPattern R :=
  if x ∈ op.vars then op
  else { op.insertVars [x] with isolatedVars := op.isolatedVars.insert x }

def addIsolatedTerm (t : QueryElement R) (op : OpBasicGraphPattern R) : OpBasicGraphPattern R :=
  { op with isolatedTerms := op.isolatedTerms.insert t }

end OpBasicGraphPattern

structure Property where
  key : String
  value : Term

/-- `node`.  There are no properties when `properties()` is null. -/
inductive Node
  | fixed (t : Term)
  | var (name : Option VarName) (types : List String) (properties : List Property)

inductive EdgeId
  | var (x : VarName)
  | id (n : Nat)

/-- `TYPE` or `TYPE_VAR`, without the colon. -/
inductive EdgeType
  | type (name : String)
  | var (x : VarName)

structure EdgeInside where
  id : Option EdgeId
  type : Option EdgeType
  properties : List Property

inductive PathSuffix
  | star
  | plus
  | optional
  | range (min max : Nat)

inductive PathAtom
  | simple (inverse : Bool) (type : String) (suffix : Option PathSuffix)
  | alternatives (inverse : Bool) (alternatives : List (List PathAtom)) (suffix : Option PathSuffix)

/-- `edge` or `path`; `right` when it ends with `>`. -/
inductive Link
  | edge (right : Bool) (inside : Option EdgeInside)
  | path (right : Bool) (type : Option PathSemantic) (var : Option VarName)
    (alternatives : List (List PathAtom))

structure LinearPattern where
  first : Node
  rest : List (Link × Node)

/-- `graphPattern`: a basic pattern and the patterns of its OPTIONALs. -/
inductive GraphPattern
  | node (basicPattern : List LinearPattern) (optionalPattern : List GraphPattern)

section paths

variable {R : Type}

def visitSuffix (p : IPath) : Option PathSuffix → Except (QueryException R) IPath
  | none => .ok p
  | some .star => .ok (.kleeneStar p.denull)
  | some .plus => .ok (.sequence [p, .kleeneStar p.denull])
  | some .optional => .ok (if p.nullable then p else .optional p)
  | some (.range min max) => do
    let min ← stoul min
    let max ← stoul max
    return .sequence (List.replicate min p ++ List.replicate (max - min) (.optional p))

def single (build : List IPath → IPath) : List IPath → IPath
  | [p] => p
  | ps => build ps

mutual

/-- `visitPathAtomSimple` and `visitPathAtomAlternatives`; `inverse` is `current_path_inverse`. -/
def visitPathAtom (inverse : Bool) : PathAtom → Except (QueryException R) IPath
  | .simple inv type suffix => visitSuffix (.atom type (inv ^^ inverse)) suffix
  | .alternatives inv alternatives suffix => do
    let ps ← visitPathSequences (inv ^^ inverse) alternatives
    visitSuffix (single .alternatives ps) suffix

def visitPathSequences (inverse : Bool) :
    List (List PathAtom) → Except (QueryException R) (List IPath)
  | [] => .ok []
  | atoms :: rest => do
    let ps ← visitPathAtoms inverse atoms
    let qs ← visitPathSequences inverse rest
    return single .sequence (if inverse then ps.reverse else ps) :: qs

def visitPathAtoms (inverse : Bool) : List PathAtom → Except (QueryException R) (List IPath)
  | [] => .ok []
  | atom :: atoms => do
    let p ← visitPathAtom inverse atom
    let ps ← visitPathAtoms inverse atoms
    return p :: ps

end

def visitPathAlternatives (alternatives : List (List PathAtom)) : Except (QueryException R) IPath :=
  single .alternatives <$> visitPathSequences false alternatives

end paths

structure QueryVisitor (R : Type) where
  anonVarCounter : Nat
  possibleIsolatedVars : List Var
  currentBasicGraphPattern : OpBasicGraphPattern R

abbrev Visit (R : Type) := StateT (QueryVisitor R) (Except (QueryException R))

namespace QueryVisitor

variable {R : Type} [DecidableEq R] (stof : String → Option R)

def initial : QueryVisitor R := ⟨0, [], .empty⟩

def anonVar : Visit R ElementVar := fun s =>
  .ok (.anon s.anonVarCounter, { s with anonVarCounter := s.anonVarCounter + 1 })

def anonVarUnless (name : Option VarName) : Visit R ElementVar :=
  match name with
  | some x => pure (.named x)
  | none => anonVar

def modifyPattern
    (f : OpBasicGraphPattern R → Except (QueryException R) (OpBasicGraphPattern R)) :
    Visit R Unit := fun s =>
  match f s.currentBasicGraphPattern with
  | .ok op => .ok ((), { s with currentBasicGraphPattern := op })
  | .error e => .error e

def addLabel (id : Element) (label : String) : Visit R Unit :=
  modifyPattern fun op => do
    let node ← deduce stof id
    return op.addLabel ⟨node, label⟩

def addProperty (id : Element) (p : Property) : Visit R Unit :=
  modifyPattern fun op => do
    let node ← deduce stof id
    let value ← deduce stof (.term p.value)
    op.addProperty ⟨node, p.key, value⟩

def addEdge (source target type edge : Element) : Visit R Unit :=
  modifyPattern fun op => do
    let source ← deduce stof source
    let target ← deduce stof target
    let type ← deduce stof type
    let edge ← deduce stof edge
    return op.addEdge ⟨source, target, type, edge⟩

def addPath (var : ElementVar) (source target : Element) (semantic : PathSemantic) (path : IPath) :
    Visit R Unit :=
  modifyPattern fun op => do
    let source ← deduce stof source
    let target ← deduce stof target
    return op.addPath ⟨var, source, target, semantic, path⟩

def addIsolatedTerm (t : Term) : Visit R Unit :=
  modifyPattern fun op => do
    let term ← deduce stof (.term t)
    return op.addIsolatedTerm term

def addIsolatedVar (x : ElementVar) : Visit R Unit :=
  modifyPattern fun op => .ok (op.addIsolatedVar (.element x))

def addPossibleIsolatedVar (x : VarName) : Visit R Unit := fun s =>
  .ok ((), { s with
    possibleIsolatedVars := s.possibleIsolatedVars.insert (.element (.named x)) })

def visitLabels (id : Element) : List String → Visit R Unit
  | [] => pure ()
  | label :: labels => do
    addLabel stof id label
    visitLabels id labels

def visitProperties (id : Element) : List Property → Visit R Unit
  | [] => pure ()
  | p :: ps => do
    addProperty stof id p
    visitProperties id ps

def visitIsolated (name : Option VarName) (id : ElementVar) : Visit R Unit :=
  match name with
  | some x => addPossibleIsolatedVar x
  | none => addIsolatedVar id

/-- `visitFixedNodeInside` and `visitVarNode`, with `first_element_isolated`: the text that is
saved as the last node. -/
def visitNode (isolated : Bool) : Node → Visit R Element
  | .fixed t => do
    if isolated then addIsolatedTerm stof t
    return .term t
  | .var name types properties => do
    let id ← anonVarUnless name
    if isolated ∧ types.isEmpty ∧ properties.isEmpty then visitIsolated name id
    visitLabels stof (.var id) types
    visitProperties stof (.var id) properties
    return .var id

def visitEdgeId : Option EdgeId → Visit R Element
  | some (.var x) => pure (.var (.named x))
  | some (.id n) => pure (.term (.edgeId n))
  | none => .var <$> anonVar

def visitEdgeType : Option EdgeType → Visit R Element
  | some (.var x) => pure (.var (.named x))
  | some (.type name) => pure (.term (.word name))
  | none => .var <$> anonVar

/-- `visitEdgeInside`: the texts saved for the edge and for its type. -/
def visitEdgeInside (inside : EdgeInside) : Visit R (Element × Element) := do
  let edge ← visitEdgeId inside.id
  let type ← visitEdgeType inside.type
  visitProperties stof edge inside.properties
  return (edge, type)

/-- `visitEdge` and `visitPath`, between the saved node and the last node. -/
def visitLink (saved last : Element) : Link → Visit R Unit
  | .edge right inside => do
    let (edge, type) ← visitEdgeInside stof (inside.getD ⟨none, none, []⟩)
    if right then addEdge stof saved last type edge else addEdge stof last saved type edge
  | .path right type var alternatives => do
    let x ← anonVarUnless var
    let path ← (visitPathAlternatives alternatives : Except (QueryException R) IPath)
    let semantic := type.getD .any
    if right then addPath stof x saved last semantic path
    else addPath stof x last saved semantic path

/-- The loop of `visitLinearPattern`: a node, then the edge or path before it. -/
def visitLinks (saved : Element) : List (Link × Node) → Visit R Unit
  | [] => pure ()
  | (link, node) :: rest => do
    let last ← visitNode stof false node
    visitLink stof saved last link
    visitLinks last rest

def visitLinearPattern (p : LinearPattern) : Visit R Unit := do
  let first ← visitNode stof p.rest.isEmpty p.first
  visitLinks stof first p.rest

def visitLinearPatterns : List LinearPattern → Visit R Unit
  | [] => pure ()
  | p :: ps => do
    visitLinearPattern stof p
    visitLinearPatterns ps

/-- `visitBasicPattern`: the variables that may be isolated are tried at the end. -/
def visitBasicPattern (ps : List LinearPattern) : Visit R (OpBasicGraphPattern R) := fun s =>
  match visitLinearPatterns stof ps { s with currentBasicGraphPattern := .empty } with
  | .ok ((), s) =>
    .ok (s.possibleIsolatedVars.foldl .tryAddPossibleIsolatedVar s.currentBasicGraphPattern, s)
  | .error e => .error e

end QueryVisitor

/-- The operators of a pattern: `OpBasicGraphPattern`, alone or in an `OpOptional`. -/
inductive Op (R : Type)
  | basic (op : OpBasicGraphPattern R)
  | optional (op : OpBasicGraphPattern R) (optionals : List (Op R))

section patterns

variable {R : Type} [DecidableEq R] (stof : String → Option R)

mutual

def visitGraphPattern : GraphPattern → Visit R (Op R)
  | .node basicPattern optionalPattern => do
    let parent ← QueryVisitor.visitBasicPattern stof basicPattern
    let optionals ← visitOptionalPatterns optionalPattern
    return if optionals.isEmpty then .basic parent else .optional parent optionals

def visitOptionalPatterns : List GraphPattern → Visit R (List (Op R))
  | [] => pure []
  | p :: ps => do
    let op ← visitGraphPattern p
    let ops ← visitOptionalPatterns ps
    return op :: ops

end

/-- The loop over the variables of one basic pattern: those seen after it, if nothing is
thrown. -/
def checkBasic (parentVars globalVars : List Var) (op : OpBasicGraphPattern R) :
    Option (List Var) :=
  if op.vars.all fun x => x ∉ globalVars ∨ x ∈ parentVars then some (globalVars ++ op.vars)
  else none

mutual

def checkWellDesigned (parentVars globalVars : List Var) : Op R → Option (List Var)
  | .basic op => checkBasic parentVars globalVars op
  | .optional op optionals =>
    match checkBasic parentVars globalVars op with
    | none => none
    | some globalVars => checkOptionals op.vars globalVars optionals

def checkOptionals (parentVars globalVars : List Var) : List (Op R) → Option (List Var)
  | [] => some globalVars
  | op :: ops =>
    match checkWellDesigned parentVars globalVars op with
    | none => none
    | some globalVars => checkOptionals parentVars globalVars ops

end

/-- How the parser ends: with the operators, with an exception of the visitor, or with
"Query is not well defined". -/
inductive Outcome (R : Type)
  | parsed (op : Op R)
  | thrown (e : QueryException R)
  | notWellDefined

def parse (p : GraphPattern) : Outcome R :=
  match visitGraphPattern stof p .initial with
  | .error e => .thrown e
  | .ok (op, _) => if (checkWellDesigned [] [] op).isSome then .parsed op else .notWellDefined

end patterns

end Parser
end MillenniumDB
