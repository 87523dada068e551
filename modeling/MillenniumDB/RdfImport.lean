import MillenniumDB.ImportIndexes
import MillenniumDB.RdfTerms

/-!
# The RDF import

The reader delivers statements; `on_statement` gives their terms ids and appends a triple.  From
the triples, and from those with equal positions, the import builds its trees and the catalog.
-/

namespace MillenniumDB
namespace ImportRdf

open Import (column)

inductive SerdType
  | nothing | literal | uri | curie | blank
  deriving DecidableEq

/-- `SerdNode`, whose bytes are those of `buf`. -/
structure SerdNode where
  type : SerdType
  buf : Bytes

structure Statement where
  subject : SerdNode
  predicate : SerdNode
  object : SerdNode
  objectDatatype : Option SerdNode
  objectLang : Option SerdNode

/-- What ids are resolved with.  A blank node, a datatype or a language has the number that it has
in its list. -/
structure Ids where
  externalStrings : ExternalStrings
  blankNodes : List Bytes
  datatypes : List Bytes
  languages : List Bytes

def numberOf (names : List Bytes) (name : Bytes) : Nat × List Bytes :=
  match names.idxOf? name with
  | some number => (number, names)
  | none => (names.length, names ++ [name])

abbrev Resolved := Option Nat × Ids

section

variable (ids : Ids)

def getOrCreateExternalStringId (str : Bytes) : Nat × Ids :=
  ((ids.externalStrings.getOrCreateId str).1,
    { ids with externalStrings := (ids.externalStrings.getOrCreateId str).2 })

/-- The first prefix of the list that the text begins with: its number and its length. -/
def findPrefix (str : Bytes) : List Bytes → Nat → Option (Nat × Nat)
  | [], _ => none
  | start :: prefixes, number =>
    if start <+: str then some (number, start.length) else findPrefix str prefixes (number + 1)

def getIriId (prefixes : List Bytes) (str : Bytes) : Nat × Ids :=
  let (prefixId, str) :=
    match findPrefix str prefixes 0 with
    | some (number, length) => (number <<< 48, str.drop length)
    | none => (0, str)
  if str.length < 7 then
    (Inliner.inlineIri str ||| ObjectId.maskIriInlined ||| prefixId, ids)
  else
    let (id, ids) := getOrCreateExternalStringId ids str
    (id ||| ObjectId.maskIriExtern ||| prefixId, ids)

def getBlankId (str : Bytes) : Nat × Ids :=
  let (number, blankNodes) := numberOf ids.blankNodes (cString str)
  ((number + 1) ||| ObjectId.maskAnon, { ids with blankNodes := blankNodes })

def taggedId (maskInlined maskExtern tagId : Nat) (str : Bytes) : Nat × Ids :=
  if str.length < 6 then (Inliner.inlineString5 str ||| maskInlined ||| tagId, ids)
  else
    let (id, ids) := getOrCreateExternalStringId ids str
    (id ||| maskExtern ||| tagId, ids)

/-- `save_object_id_literal`. -/
def literalId (str : Bytes) : Nat × Ids :=
  if str.length < 8 then
    (Inliner.inlineString str ||| ObjectId.maskStringInlined, ids)
  else
    let (id, ids) := getOrCreateExternalStringId ids str
    (id ||| ObjectId.maskStringExtern, ids)

def xsd (name : String) : Bytes := ("http://www.w3.org/2001/XMLSchema#" ++ name).toUTF8.toList

/-- `save_object_id_literal_datatype`; it has no result where the text of a date ends too early. -/
def literalDatatypeId (str datatype : Bytes) : Option Resolved :=
  let text := cString str
  let datatype := cString datatype
  if datatype = xsd "dateTime" then do
    let datetimeId ← DateTime.getDatetimeId text
    if datetimeId = DateTime.invalidId then return (none, ids)
    else return (some (datetimeId.toNat ||| ObjectId.maskDatetime), ids)
  else if datatype = xsd "decimal" then
    let decimalId := DecimalInlined.getDecimalId text
    if decimalId = DecimalInlined.invalidId then
      let (id, ids) := getOrCreateExternalStringId ids (Decimal.normalize text)
      some (some (id ||| ObjectId.maskDecimalExtern), ids)
    else some (some (decimalId.toNat ||| ObjectId.maskDecimalInlined), ids)
  else if datatype = xsd "boolean" then
    if text = [116, 114, 117, 101] ∨ text = [49] then some (some (ObjectId.maskBool ||| 1), ids)
    else if text = [102, 97, 108, 115, 101] ∨ text = [48] then
      some (some (ObjectId.maskBool ||| 0), ids)
    else some (none, ids)
  else
    let (number, datatypes) := numberOf ids.datatypes datatype
    let (id, ids) := taggedId { ids with datatypes := datatypes }
      ObjectId.maskStringDatatypeInlined ObjectId.maskStringDatatypeExtern (number <<< 40) str
    some (some id, ids)

/-- `save_object_id_literal_lang`. -/
def literalLangId (str lang : Bytes) : Nat × Ids :=
  let (number, languages) := numberOf ids.languages (cString lang)
  taggedId { ids with languages := languages }
    ObjectId.maskStringLangInlined ObjectId.maskStringLangExtern (number <<< 40) str

end

structure OnDiskImport where
  ids : Ids
  triples : List (Nat × Nat × Nat)
  equalSpo : List Nat
  equalSp : List (Nat × Nat)
  equalSo : List (Nat × Nat)
  equalPo : List (Nat × Nat)

def OnDiskImport.start (hash : Bytes → UInt64) : OnDiskImport :=
  ⟨⟨.empty hash, [], [], []⟩, [], [], [], [], []⟩

/-- What a file needs of its environment: the list of prefixes, and how names are expanded. -/
structure Environment where
  prefixes : List Bytes
  expand : SerdNode → SerdNode
  hash : Bytes → UInt64

section

variable (env : Environment)

def handleSubject (subject : SerdNode) (ids : Ids) : Except String (Nat × Ids) :=
  match subject.type with
  | .uri | .curie => .ok (getIriId ids env.prefixes (env.expand subject).buf)
  | .blank => .ok (getBlankId ids subject.buf)
  | _ => .error "Unexpected subject"

def handlePredicate (predicate : SerdNode) (ids : Ids) : Except String (Nat × Ids) :=
  match predicate.type with
  | .uri | .curie => .ok (getIriId ids env.prefixes (env.expand predicate).buf)
  | _ => .error "Unexpected predicate"

/-- `handle_object`; a rejected object has no id. -/
def handleObject (statement : Statement) (ids : Ids) : Except String Resolved :=
  let object := statement.object
  let resolved : Nat × Ids → Resolved := fun r => (some r.1, r.2)
  match object.type with
  | .uri | .curie => .ok (resolved (getIriId ids env.prefixes (env.expand object).buf))
  | .blank => .ok (resolved (getBlankId ids object.buf))
  | .literal =>
    match statement.objectDatatype, statement.objectLang with
    | some datatype, _ =>
      match literalDatatypeId ids object.buf (env.expand datatype).buf with
      | some r => .ok r
      | none => .error "reads behind the end"
    | none, some lang => .ok (resolved (literalLangId ids object.buf lang.buf))
    | none, none => .ok (resolved (literalId ids object.buf))
  | .nothing => .error "Unexpected object"

def saveTriple (subjectId predicateId objectId : Nat) (s : OnDiskImport) : OnDiskImport :=
  { s with
    equalSp := s.equalSp ++ if subjectId = predicateId then [(subjectId, objectId)] else []
    equalSpo := s.equalSpo ++
      if subjectId = predicateId ∧ subjectId = objectId then [subjectId] else []
    equalSo := s.equalSo ++ if subjectId = objectId then [(subjectId, predicateId)] else []
    equalPo := s.equalPo ++ if predicateId = objectId then [(predicateId, subjectId)] else []
    triples := s.triples ++ [(subjectId, predicateId, objectId)] }

/-- `on_statement`: the object comes first, and when it is rejected nothing else happens. -/
def onStatement (s : OnDiskImport) (statement : Statement) : Except String OnDiskImport := do
  let (objectId, ids) ← handleObject env statement s.ids
  match objectId with
  | none => return { s with ids := ids }
  | some objectId =>
    let (subjectId, ids) ← handleSubject env statement.subject ids
    let (predicateId, ids) ← handlePredicate env statement.predicate ids
    return saveTriple subjectId predicateId objectId { s with ids := ids }

def readStatements (s : OnDiskImport) (statements : List Statement) : Except String OnDiskImport :=
  statements.foldlM (onStatement env) s

end

inductive Index
  | spo | pos | osp | pso
  | equalSpo | equalSp | equalSo | equalPo
  | equalSpInverted | equalSoInverted | equalPoInverted
  deriving DecidableEq

structure RdfCatalog where
  triplesCount : Nat
  distinctSubjects : Nat
  distinctPredicates : Nat
  distinctObjects : Nat
  predicate2totalCount : Counts Nat
  equalSpoCount : Nat
  equalSpCount : Nat
  equalSoCount : Nat
  equalPoCount : Nat
  blankNodesCount : Nat
  datatypes : List Bytes
  languages : List Bytes

structure Imported where
  tree : Index → Bpt
  catalog : RdfCatalog

/-- `start_import` after the file is read.  The strings go to files of their own. -/
def startImport (bufferSizeInGB : Nat) (s : OnDiskImport) : Except Failure Imported := do
  let bufferSize := 1024 * 1024 * 1024 * bufferSizeInGB
  let triples :=
    (Import.vectorOf (s.triples.map Import.tuple3)).startIndexing 3 bufferSize [0, 1, 2]
  let (spo, triples') ← triples.createBpt 3 Import.DistinctStat.processTuple
    Import.DistinctStat.start [0, 1, 2]
  let (pos, triples') ← triples'.createBpt 3 Import.PredicateStat.processTuple
    Import.PredicateStat.start [1, 2, 0]
  let (osp, triples') ← triples'.createBpt 3 Import.DistinctStat.processTuple
    Import.DistinctStat.start [2, 0, 1]
  let (pso, _) ← triples'.createBpt 3 Import.NoStat.processTuple () [1, 0, 2]
  let equalSpo := (Import.vectorOf (s.equalSpo.map ([·]))).startIndexing 1 bufferSize [0]
  let (equalSpoTree, _) ← equalSpo.createBpt 1 Import.NoStat.processTuple () [0]
  let equalSp := (Import.vectorOf (s.equalSp.map Import.tuple2)).startIndexing 2 bufferSize [0, 1]
  let (equalSpTree, equalSpInverted) ← Import.createTwoBpts 2 Import.NoStat.processTuple () [0, 1]
    Import.NoStat.processTuple () [1, 0] equalSp
  let equalSo := (Import.vectorOf (s.equalSo.map Import.tuple2)).startIndexing 2 bufferSize [0, 1]
  let (equalSoTree, equalSoInverted) ← Import.createTwoBpts 2 Import.NoStat.processTuple () [0, 1]
    Import.NoStat.processTuple () [1, 0] equalSo
  let equalPo := (Import.vectorOf (s.equalPo.map Import.tuple2)).startIndexing 2 bufferSize [0, 1]
  let (equalPoTree, equalPoInverted) ← Import.createTwoBpts 2 Import.NoStat.processTuple () [0, 1]
    Import.NoStat.processTuple () [1, 0] equalPo
  .ok {
    tree := fun
      | .spo => spo.tree
      | .pos => pos.tree
      | .osp => osp.tree
      | .pso => pso.tree
      | .equalSpo => equalSpoTree.tree
      | .equalSp => equalSpTree.tree
      | .equalSo => equalSoTree.tree
      | .equalPo => equalPoTree.tree
      | .equalSpInverted => equalSpInverted.tree
      | .equalSoInverted => equalSoInverted.tree
      | .equalPoInverted => equalPoInverted.tree
    catalog := {
      triplesCount := triples.totalTuples
      distinctSubjects := spo.stat.distinct
      distinctPredicates := pos.stat.distinctValues
      distinctObjects := osp.stat.distinct
      predicate2totalCount := pos.stat.finish
      equalSpoCount := equalSpo.totalTuples
      equalSpCount := equalSp.totalTuples
      equalSoCount := equalSo.totalTuples
      equalPoCount := equalPo.totalTuples
      blankNodesCount := s.ids.blankNodes.length
      datatypes := s.ids.datatypes
      languages := s.ids.languages } }

end ImportRdf
end MillenniumDB
