import MillenniumDB.BptImported
import MillenniumDB.EdgeNumbers
import MillenniumDB.Lib.Crashes

/-!
# INSERT on the pages

`exec_inserts` writes to the files of the trees.  While `append_page` gives new pages, and no memory
behind a full leaf is taken for the record, the trees hold what ordered lists would hold, or the
program crashes.
-/

namespace MillenniumDB

open BPlusTreeLeaf (LeafFile Leaf Linked stored)
open Import (column)

namespace BptFiles

def recordsFrom (files : BptFiles) : Nat → Nat → List Tuple
  | 0, _ => []
  | fuel + 1, number =>
    let page := files.tree.leaf number
    page.records ++ if page.nextLeaf = 0 then [] else files.recordsFrom fuel page.nextLeaf

def records (files : BptFiles) : List Tuple := files.recordsFrom files.leaf.pages.length 0

section

variable {mayCrash : Prop} {width n : Nat} {countDirs countLeaves : Nat → Nat}
  {behind record : Tuple} {files : BptFiles} {sep : Nat → Tuple} {chain : List Leaf} {leaf : Leaf}

theorem recordsFrom_eq (fuel : Nat) (hlinked : Linked n files.leaf 0 (leaf :: chain))
    (hlt : ∀ q ∈ leaf :: chain, q.number < files.leaf.pages.length)
    (hzero : ∀ q ∈ chain, q.number ≠ 0) (hfuel : chain.length < fuel) :
    files.recordsFrom fuel leaf.number = stored (leaf :: chain) := by
  induction chain generalizing leaf fuel with
  | nil =>
    obtain ⟨fuel, rfl⟩ := Nat.exists_eq_add_one_of_ne_zero (by omega : fuel ≠ 0)
    rw [recordsFrom, leaf_eq_of_page (hlt leaf List.mem_cons_self) hlinked.1]
    simp [stored]
  | cons next chain ih =>
    obtain ⟨fuel, rfl⟩ := Nat.exists_eq_add_one_of_ne_zero (by omega : fuel ≠ 0)
    rw [List.length_cons] at hfuel
    have hnext := ih fuel hlinked.2 (fun q hq => hlt q (List.mem_cons_of_mem _ hq))
      (fun q hq => hzero q (List.mem_cons_of_mem _ hq)) (by omega)
    have hpage : files.leaf.page n leaf.number = leaf.page next.number := hlinked.1
    rw [recordsFrom, leaf_eq_of_page (hlt leaf List.mem_cons_self) hpage]
    dsimp only
    rw [if_neg (hzero next List.mem_cons_self), hnext]
    rfl

theorem records_eq (hlinked : Linked n files.leaf 0 chain)
    (hlt : ∀ q ∈ chain, q.number < files.leaf.pages.length) (hnodup : (chain.map Leaf.number).Nodup)
    (hhead : (chain.map Leaf.number).head? = some 0) : files.records = stored chain := by
  have hlength : chain.length ≤ files.leaf.pages.length := by
    -- no page is linked twice, so that there is fuel for all of them
    have hsub : (chain.map Leaf.number) ⊆ List.range files.leaf.pages.length := by
      intro number hnumber
      obtain ⟨q, hq, rfl⟩ := List.mem_map.mp hnumber
      exact List.mem_range.mpr (hlt q hq)
    simpa using (hnodup.subperm hsub).length_le
  cases chain with
  | nil => cases hhead
  | cons leaf chain =>
    have hnumber : leaf.number = 0 := Option.some.inj hhead
    rw [records, ← hnumber]
    refine recordsFrom_eq _ hlinked hlt (fun q hq hzero => ?_) hlength
    exact (List.nodup_cons.mp hnodup).1 (hnumber.trans hzero.symm ▸ List.mem_map_of_mem hq)

theorem Stands.records_eq_stored (hs : files.Stands n sep chain) : files.records = stored chain :=
  BptFiles.records_eq hs.leaf.linked hs.leaf.lt hs.leaf.nodup hs.leaf.head

theorem records_ofTree {records : List Tuple} {tree : Bpt}
    (hpaged : DiskVector.Paged n records tree.leaf) : (ofTree n tree).records = records := by
  have hnumbers := numbers_importedLeaves n tree.leaf
  rw [BptFiles.records_eq (linked_ofTree hpaged), stored_importedLeaves, hpaged.concat]
  · intro q hq
    have hmem := List.mem_map_of_mem (f := Leaf.number) hq
    rw [hnumbers, List.mem_range] at hmem
    simpa [ofTree] using hmem
  · rw [hnumbers]
    exact List.nodup_range
  · rw [hnumbers, List.head?_range, if_neg]
    rw [hpaged.length]
    omega

theorem Stands.insert_records (hn : 0 < n) (hle : n ≤ 4) (hwidth : 32 ≤ width)
    (hs : files.Stands n sep chain) (hready : files.Ready mayCrash width n countDirs countLeaves)
    (hlength : record.length = n) (hbehind : behind ≠ record) :
    (record ∈ files.records ∧
      files.insert width n countDirs countLeaves behind record = .error .duplicatedRecord) ∨
    (mayCrash ∧
      files.insert width n countDirs countLeaves behind record = .error .outsidePage) ∨
    record ∉ files.records ∧ ∃ files' sep' chain',
      files.insert width n countDirs countLeaves behind record = .ok files' ∧
      files'.Stands n sep' chain' ∧ files'.Ready mayCrash width n countDirs countLeaves ∧
      files'.records = files.records.orderedInsert (· ≤ ·) record := by
  rw [hs.records_eq_stored]
  by_cases hmem : record ∈ stored chain
  · exact .inl ⟨hmem, hs.insert_duplicate hn hle hlength (.inl hmem)⟩
  right
  rcases hs.insert_new hn hle hwidth hready hlength hmem fun hmis => hbehind hmis.choose_spec.2.2.2 with
    hcrash | ⟨files', sep', chain', hinsert, hs', hready', hstored⟩
  · exact .inl hcrash
  refine .inr ⟨hmem, files', sep', chain', hinsert, hs', hready', ?_⟩
  have hperm := List.perm_orderedInsert (· ≤ ·) record (stored chain)
  rw [hs'.records_eq_stored]
  apply List.Perm.eq_of_pairwise (fun a b _ _ => le_antisymm) (hs'.leaf.sorted.imp le_of_lt)
  · exact List.Pairwise.orderedInsert record _ (hs.leaf.sorted.imp le_of_lt)
  · rw [List.perm_ext_iff_of_nodup (hs'.leaf.sorted.imp fun hlt => hlt.ne)]
    · intro r
      rw [hstored, hperm.mem_iff, List.mem_cons]
    · rw [hperm.nodup_iff]
      exact List.nodup_cons.mpr ⟨hmem, hs.leaf.sorted.imp fun hlt => hlt.ne⟩

end
end BptFiles

/-- What a run depends on besides its queries: the bits of `int_fast32_t`, the pages that
`append_page` gives for the files of each tree, and the memory behind a full leaf at each
insertion. -/
structure Machine where
  width : Nat
  countDirs : Index → Nat → Nat
  countLeaves : Index → Nat → Nat
  behind : Nat → Tuple

structure PagedDatabase where
  files : Index → BptFiles
  edgeTable : EdgeTable
  catalog : QuadCatalog
  insertions : Nat

def PagedDatabase.database (db : PagedDatabase) : Database :=
  ⟨fun i => (db.files i).records, db.edgeTable, db.catalog⟩

def Import.Imported.files (imported : Import.Imported) : PagedDatabase where
  files i := .ofTree (Import.width i) (imported.tree i)
  edgeTable := imported.edgeTable
  catalog := imported.catalog
  insertions := 0

abbrev PagedExec := EStateM (Stop String) PagedDatabase

namespace Machine

variable (m : Machine) (strId : Bytes → UInt64)

def insert (i : Index) (record : Tuple) : PagedExec Unit := fun db =>
  let result := (db.files i).insert m.width (Import.width i) (m.countDirs i) (m.countLeaves i)
    (m.behind db.insertions) record
  let db := { db with insertions := db.insertions + 1 }
  match result with
  | .ok files => .ok () { db with files := Function.update db.files i files }
  | .error .duplicatedRecord => .error (.thrown "Inserting duplicated record into BPlusTree.") db
  | .error _ => .error .crashed db

def modifyCatalog (f : QuadCatalog → QuadCatalog) : PagedExec Unit :=
  modify fun db => { db with catalog := f db.catalog }

def tryAddNode (nodeId : Nat) : PagedExec Unit := pass do
  m.insert .nodes [nodeId]
  if nodeId &&& ObjectId.typeMask = ObjectId.maskAnon then
    modifyCatalog fun c => { c with anonymousNodesCount := c.anonymousNodesCount + 1 }
  else
    modifyCatalog fun c => { c with identifiableNodesCount := c.identifiableNodesCount + 1 }

def run : Write → PagedExec Unit
  | .node nodeId => m.tryAddNode nodeId
  | .row i record => m.insert i record
  | .append record => modify fun db => { db with edgeTable := db.edgeTable.appendRecord record }
  | .catalog f => modifyCatalog f
  | .catalogIfAny i first second f => do
    if ((← get).files i).records.any fun r => column 0 r = first ∧ column 1 r = second then
      modifyCatalog f

def runWrites : List Write → PagedExec Unit
  | [] => pure ()
  | w :: ws => do
    m.run w
    runWrites ws

/-- The round of `exec_inserts` for an item: its ids, and the same statements. -/
def insertItem (item : Item) : PagedExec Unit := fun db =>
  match item.fact strId with
  | .ok fact => m.runWrites (fact.writes db.catalog.connectionsCount) db
  | .error e => .error (.thrown e) db

def execInserts (opInsert : OpInsert) : PagedExec Unit :=
  forM opInsert.items (m.insertItem strId)

/-- The database behind a run of queries, unless one of them crashes. -/
def afterQueries (db : PagedDatabase) (queries : List OpInsert) : Option PagedDatabase :=
  queries.foldlM (fun db opInsert => survivor (m.execInserts strId opInsert db)) db

/-- `append_page` makes a new page at each call after the import. -/
def AppendsTo (imported : Import.Imported) : Prop :=
  ∀ i, Appends (m.countDirs i) 0 (imported.tree i).dir.length ∧
    Appends (m.countLeaves i) 0 (imported.tree i).leaf.length

end Machine

/-- The files hold what the ordered lists hold, and insertions can go on in the given trees.  If the
tree of nodes is none of them, neither its records nor the counts of nodes need agree. -/
structure Represents (m : Machine) (trees : Set Index) (paged : PagedDatabase) (db : Database) :
    Prop where
  index : ∀ i, i ≠ .nodes ∨ i ∈ trees → (paged.files i).records = db.index i
  stands : ∀ i ∈ trees, ∃ sep chain, (paged.files i).Stands (Import.width i) sep chain ∧
    (paged.files i).Ready True m.width (Import.width i) (m.countDirs i) (m.countLeaves i)
  edgeTable : paged.edgeTable = db.edgeTable
  catalog : ∃ identifiable anonymous, paged.catalog = { db.catalog with
    identifiableNodesCount := identifiable
    anonymousNodesCount := anonymous }
  exact : .nodes ∈ trees → paged.catalog = db.catalog

namespace Write

def inserted : Write → Option (Index × Tuple)
  | node nodeId => some (.nodes, [nodeId])
  | w => w.target

/-- It neither reads nor writes the counts of nodes. -/
def Blind (f : QuadCatalog → QuadCatalog) : Prop := ∀ c identifiable anonymous,
  f { c with identifiableNodesCount := identifiable, anonymousNodesCount := anonymous } =
    { f c with identifiableNodesCount := identifiable, anonymousNodesCount := anonymous }

def Fits : Write → Prop
  | node _ => True
  | row i record => i ≠ .nodes ∧ record.length = Import.width i
  | append _ => True
  | catalog f => Blind f
  | catalogIfAny i _ _ f => i ≠ .nodes ∧ Blind f

end Write

/-- The item comes to trees in which the import has put no record twice, and the memory behind a full
leaf is not its record. -/
def Machine.Spares (m : Machine) (trees : Set Index) (strId : Bytes → UInt64) (item : Item)
    (db : Database) : Prop :=
  ∀ fact, item.fact strId = .ok fact → ∀ w ∈ fact.writes db.catalog.connectionsCount,
    ∀ row ∈ w.inserted, row.1 = .nodes ∧ .nodes ∉ trees ∨
      row.1 ∈ trees ∧ ∀ k, m.behind k ≠ row.2

section

variable {m : Machine} {trees : Set Index} {paged paged' : PagedDatabase} {db db' : Database}
  {i : Index} {record : Tuple} {strId : Bytes → UInt64}

theorem Fact.fits (fact : Fact) (connectionsCount : Nat) :
    ∀ w ∈ fact.writes connectionsCount, w.Fits := by
  cases fact with
  | label labelId nodeId => simp [Fact.writes, labelWrites, Write.Fits, Write.Blind, Import.width]
  | property objId keyId valId =>
    simp [Fact.writes, propertyWrites, Write.Fits, Write.Blind, Import.width]
  | edge source target type =>
    rw [Fact.writes, List.forall_mem_append]
    constructor
    · simp [connectionWrites, Write.Fits, Write.Blind, Import.width]
    · rw [equalWrites, List.forall_mem_append, List.forall_mem_append]
      refine ⟨⟨forall_mem_ite ?_, forall_mem_ite ?_⟩, forall_mem_ite ?_⟩
      · rw [List.forall_mem_append]
        refine ⟨?_, forall_mem_ite ?_⟩
        all_goals simp [Write.Fits, Write.Blind, Import.width]
      all_goals simp [Write.Fits, Write.Blind, Import.width]

theorem Represents.insert (hwidth : 32 ≤ m.width) (h : Represents m trees paged db)
    (hi : i ∈ trees) (hlength : record.length = Import.width i) (hbehind : ∀ k, m.behind k ≠ record) :
    Refines (Represents m trees) (m.insert i record paged) (Exec.insert i record db) := by
  obtain ⟨sep, chain, hs, hready⟩ := h.stands i hi
  have hindex := h.index i (.inr hi)
  have hcount : Represents m trees { paged with insertions := paged.insertions + 1 } db :=
    ⟨h.index, h.stands, h.edgeTable, h.catalog, h.exact⟩
  rw [Machine.insert, Exec.insert, ← hindex]
  -- the record is there already, a split crashes, or the leaves take it in
  rcases hs.insert_records (by cases i <;> decide) (by cases i <;> decide) hwidth hready hlength
    (hbehind paged.insertions) with
    ⟨hmem, hresult⟩ | ⟨-, hresult⟩ | ⟨hmem, files', sep', chain', hresult, hs', hready', hrecords⟩
  · simp only [hresult, if_pos hmem]
    exact .thrown hcount
  · simp only [hresult]
    exact .crashed
  · simp only [hresult, if_neg hmem]
    refine .ok ⟨fun j hj => ?_, fun j hj => ?_, h.edgeTable, h.catalog, h.exact⟩
    · by_cases heq : j = i
      · subst heq
        simp only [Function.update_self, hrecords]
      · simp only [Function.update_of_ne heq]
        exact h.index j hj
    · by_cases heq : j = i
      · subst heq
        simp only [Function.update_self]
        exact ⟨sep', chain', hs', hready'⟩
      · simp only [Function.update_of_ne heq]
        exact h.stands j hj

theorem Represents.modifyCatalog (h : Represents m trees paged db) (f : QuadCatalog → QuadCatalog)
    (hf : Write.Blind f ∨ .nodes ∈ trees) :
    Refines (Represents m trees) (Machine.modifyCatalog f paged) (Exec.modifyCatalog f db) := by
  refine .ok ⟨h.index, h.stands, h.edgeTable, ?_, fun hnodes => congrArg f (h.exact hnodes)⟩
  rcases hf with hf | hnodes
  · obtain ⟨identifiable, anonymous, hcatalog⟩ := h.catalog
    exact ⟨identifiable, anonymous, (congrArg f hcatalog).trans (hf _ _ _)⟩
  · exact ⟨_, _, congrArg f (h.exact hnodes)⟩

theorem Machine.tryAddNode_eq (m : Machine) (nodeId : Nat) (paged : PagedDatabase) :
    (∃ s, m.tryAddNode nodeId paged = .error .crashed s) ∨
    ∃ files identifiable anonymous insertions, m.tryAddNode nodeId paged = .ok ()
      { files := Function.update paged.files .nodes files
        edgeTable := paged.edgeTable
        catalog := { paged.catalog with
          identifiableNodesCount := identifiable
          anonymousNodesCount := anonymous }
        insertions } := by
  have hself : Function.update paged.files .nodes (paged.files .nodes) = paged.files :=
    Function.update_eq_self _ _
  simp only [tryAddNode, pass, insert, modifyCatalog, tryCatch, tryCatchThe, bind, EStateM.bind,
    MonadExceptOf.tryCatch, EStateM.tryCatch]
  generalize (paged.files .nodes).insert _ _ _ _ _ _ = result
  cases result with
  | ok files =>
    right
    by_cases hanon : nodeId &&& ObjectId.typeMask = ObjectId.maskAnon
    · exact ⟨files, _, _, _, by simp only [if_pos hanon]; rfl⟩
    · exact ⟨files, _, _, _, by simp only [if_neg hanon]; rfl⟩
  | error e =>
    cases e with
    | duplicatedRecord => exact .inr ⟨paged.files .nodes, _, _, _, by rw [hself]; rfl⟩
    | outsidePage => exact .inl ⟨_, rfl⟩
    | diverges => exact .inl ⟨_, rfl⟩

theorem Represents.tryAddNode (hwidth : 32 ≤ m.width) (h : Represents m trees paged db) {nodeId : Nat}
    (hspares : .nodes ∉ trees ∨ .nodes ∈ trees ∧ ∀ k, m.behind k ≠ [nodeId]) :
    Refines (Represents m trees) (m.tryAddNode nodeId paged) (Exec.tryAddNode nodeId db) := by
  rcases hspares with hnodes | ⟨hnodes, hbehind⟩
  · -- a crash apart, only the tree of nodes and the counts of nodes change
    have hlist : Exec.tryAddNode nodeId db = .ok () (db.addNode nodeId) := Write.run_node nodeId
    rw [hlist]
    rcases m.tryAddNode_eq nodeId paged with ⟨s, hcrash⟩ | ⟨files, _, _, _, hok⟩
    · rw [hcrash]
      exact .crashed
    · rw [hok]
      obtain ⟨_, _, hcatalog⟩ := h.catalog
      obtain ⟨_, _, hcatalog'⟩ := @Write.catalog_addNode db nodeId
      have hne : ∀ j, j ≠ .nodes ∨ j ∈ trees → j ≠ .nodes :=
        fun j hj heq => hj.elim (· heq) fun hj => hnodes (heq ▸ hj)
      refine .ok ⟨fun j hj => ?_, fun j hj => ?_, ?_, ?_, fun hmem => absurd hmem hnodes⟩
      · dsimp only
        rw [Function.update_of_ne (hne j hj), Write.index_addNode (hne j hj)]
        exact h.index j hj
      · dsimp only
        rw [Function.update_of_ne (hne j (.inr hj))]
        exact h.stands j hj
      · rw [Write.edgeTable_addNode]
        exact h.edgeTable
      · rw [hcatalog, hcatalog']
        exact ⟨_, _, rfl⟩
  · refine Refines.pass (Refines.seq (h.insert hwidth hnodes rfl hbehind) fun s t _ hR => ?_)
    split_ifs
    · exact hR.modifyCatalog _ (.inr hnodes)
    · exact hR.modifyCatalog _ (.inr hnodes)

theorem Represents.run (hwidth : 32 ≤ m.width) (h : Represents m trees paged db) {w : Write}
    (hfits : w.Fits) (hspares : ∀ row ∈ w.inserted, row.1 = .nodes ∧ .nodes ∉ trees ∨
      row.1 ∈ trees ∧ ∀ k, m.behind k ≠ row.2) :
    Refines (Represents m trees) (m.run w paged) (w.run db) := by
  cases w with
  | node nodeId => exact h.tryAddNode hwidth ((hspares _ rfl).imp_left And.right)
  | row i record =>
    obtain ⟨hi, hbehind⟩ := (hspares _ rfl).resolve_left fun hnodes => hfits.1 hnodes.1
    exact h.insert hwidth hi hfits.2 hbehind
  | append record =>
    exact .ok ⟨h.index, h.stands, congrArg (·.appendRecord record) h.edgeTable, h.catalog, h.exact⟩
  | catalog f => exact h.modifyCatalog f (.inl hfits)
  | catalogIfAny i first second f =>
    -- the probe of the range sees the same records on both sides
    have hindex := h.index i (.inl hfits.1)
    show Refines (Represents m trees)
      ((if (paged.files i).records.any fun r => column 0 r = first ∧ column 1 r = second then
        Machine.modifyCatalog f else pure () : PagedExec Unit) paged)
      ((if (db.index i).any fun r => column 0 r = first ∧ column 1 r = second then
        Exec.modifyCatalog f else pure () : Exec Unit) db)
    rw [hindex]
    split_ifs
    · exact h.modifyCatalog f (.inl hfits.2)
    · exact .ok h

theorem Represents.runWrites (hwidth : 32 ≤ m.width) (ws : List Write)
    (h : Represents m trees paged db) (hfits : ∀ w ∈ ws, w.Fits)
    (hspares : ∀ w ∈ ws, ∀ row ∈ w.inserted, row.1 = .nodes ∧ .nodes ∉ trees ∨
      row.1 ∈ trees ∧ ∀ k, m.behind k ≠ row.2) :
    Refines (Represents m trees) (m.runWrites ws paged) (MillenniumDB.runWrites ws db) := by
  induction ws generalizing paged db with
  | nil => exact .ok h
  | cons w ws ih =>
    obtain ⟨hw, hws⟩ := List.forall_mem_cons.mp hfits
    obtain ⟨hw', hws'⟩ := List.forall_mem_cons.mp hspares
    exact Refines.seq (h.run hwidth hw hw') fun s t _ hR => ih hR hws hws'

theorem Represents.insertItem (hwidth : 32 ≤ m.width) (h : Represents m trees paged db) {item : Item}
    (hspares : m.Spares trees strId item db) :
    Refines (Represents m trees) (m.insertItem strId item paged) (item.insert strId db) := by
  rw [Machine.insertItem, Item.insert_eq]
  cases hfact : item.fact strId with
  | error e => exact .thrown h
  | ok fact =>
    obtain ⟨_, _, hcatalog⟩ := h.catalog
    dsimp only
    rw [show paged.catalog.connectionsCount = db.catalog.connectionsCount by rw [hcatalog]]
    exact h.runWrites hwidth _ (fact.fits _) (hspares fact hfact)

theorem stateAfter_eq (x : Exec Unit) (db : Database) : stateAfter x db = finalState (x db) := by
  rw [stateAfter]
  cases x db <;> rfl

/-- A run of queries on the files is the run on the ordered lists, unless it crashes. -/
theorem Represents.afterQueries (hwidth : 32 ≤ m.width) (queries : List OpInsert)
    (h : Represents m trees paged db) (hspares : Meets strId (m.Spares trees strId) db queries)
    (hrun : m.afterQueries strId paged queries = some paged') :
    Represents m trees paged' (MillenniumDB.afterQueries strId db queries) := by
  induction queries generalizing paged db with
  | nil =>
    obtain rfl := Option.some.inj hrun
    exact h
  | cons opInsert queries ih =>
    obtain ⟨after, hquery, hrest⟩ := Option.bind_eq_some_iff.mp hrun
    have hitems : Refines (Represents m trees) (m.execInserts strId opInsert paged)
        (forM opInsert.items (Item.insert strId) db) :=
      Refines.forM (C := m.Spares trees strId)
        (fun item paged db hR hC => hR.insertItem hwidth hC) opInsert.items h
        fun done item rest db' => hspares.head
    refine ih ?_ hspares.tail hrest
    rw [afterQuery, execInserts_eq, stateAfter_eq]
    exact hitems.survivor hquery

theorem Represents.database_eq (h : Represents m trees paged db) (hnodes : .nodes ∈ trees) :
    paged.database = db := by
  have hindex : (fun i => (paged.files i).records) = db.index := by
    funext i
    by_cases hi : i = .nodes
    · exact h.index i (.inr (hi ▸ hnodes))
    · exact h.index i (.inl hi)
  rw [PagedDatabase.database, hindex, h.edgeTable, h.exact hnodes]

theorem Import.length_recordsOf (c : Import.Collections) (i : Index) :
    ∀ r ∈ Import.recordsOf c i, r.length = Import.width i := by
  intro r hr
  cases i
  all_goals
    obtain ⟨_, -, rfl⟩ := List.mem_map.mp hr
    rfl

/-- The import leaves files in which insertions can go on, in the trees without a record twice. -/
theorem Import.Writes.represents {s : Import.OnDiskImport} {imported : Import.Imported}
    (h : Import.Writes s imported) (hpages : m.AppendsTo imported)
    (htrees : ∀ i ∈ trees, (imported.database.index i).Nodup) :
    Represents m trees imported.files imported.database where
  index i _ := (BptFiles.records_ofTree (h.tree i).toPaged).trans (h.tree i).concat.symm
  stands i hi := by
    have hsort := (h.tree i).concat
    obtain ⟨σ, process, stat, w, hload, htree⟩ := (h.tree i).load
    have hperm := DiskVector.perm_sort (Import.recordsOf s.collected i)
    have hnodup : (Import.run s.collected i).Nodup := hsort ▸ htrees i hi
    obtain ⟨chain, hs, hbounded, -⟩ := BptFiles.ofTree_stands process (n := Import.width i)
      (by cases i <;> decide) (by cases i <;> decide) hload
      (Import.pairwise_lt_sort.mpr (hperm.nodup_iff.mp hnodup))
      fun r hr => Import.length_recordsOf _ i r (hperm.mem_iff.mp hr)
    rw [htree] at hs hbounded
    refine ⟨_, chain, hs, ⟨⟨fun page hpage => ⟨hbounded page hpage, .inl trivial⟩, (hpages i).1⟩, ?_⟩⟩
    simpa [Import.Imported.files, BptFiles.ofTree] using (hpages i).2
  edgeTable := rfl
  catalog := ⟨_, _, rfl⟩
  exact _ := rfl

/-- Every page of `append_page` is new, and no memory looks like a record. -/
def Machine.fresh (imported : Import.Imported) : Machine where
  width := 64
  countDirs i k := (imported.tree i).dir.length + k
  countLeaves i k := (imported.tree i).leaf.length + k
  behind _ := []

theorem Machine.appendsTo_fresh (imported : Import.Imported) : (fresh imported).AppendsTo imported :=
  fun i => ⟨fun k => congrArg ((imported.tree i).dir.length + ·) k.zero_add,
    fun k => congrArg ((imported.tree i).leaf.length + ·) k.zero_add⟩

theorem Machine.spares_fresh {imported : Import.Imported} (htrees : ∀ i, i ≠ .nodes → i ∈ trees)
    (item : Item) (db : Database) : (fresh imported).Spares trees strId item db := by
  intro fact _ w hw row hrow
  have hfits := fact.fits _ w hw
  cases w with
  | node nodeId =>
    cases hrow
    by_cases hnodes : .nodes ∈ trees
    · exact .inr ⟨hnodes, fun _ => List.cons_ne_nil _ _ ∘ Eq.symm⟩
    · exact .inl ⟨rfl, hnodes⟩
  | row i record =>
    cases hrow
    refine .inr ⟨htrees i hfits.1, fun _ hnil => ?_⟩
    have hlength : 0 = Import.width i := (congrArg List.length hnil).trans hfits.2
    cases i <;> cases hlength
  | _ => cases hrow

def Index.all : List Index :=
  [.nodes, .labelNode, .nodeLabel, .objectKeyValue, .keyValueObject, .fromToTypeEdge,
    .toTypeFromEdge, .typeFromToEdge, .typeToFromEdge, .equalFromTo, .equalFromType, .equalToType,
    .equalFromToType, .equalFromToInverted, .equalFromTypeInverted, .equalToTypeInverted]

theorem Index.mem_all (i : Index) : i ∈ all := by
  cases i <;> decide

end
end MillenniumDB
