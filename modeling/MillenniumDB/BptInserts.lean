import MillenniumDB.BptBuilds
import MillenniumDB.LeapfrogBpt
import MillenniumDB.Lib.Slots
import Mathlib.Data.Int.ModEq

/-!
# Inserting into a B+ tree

`BPlusTree::insert` follows the keys down to a leaf and puts the record there.  A leaf that is full
is cut in two, and so is every directory page on the way back that has no room for one more key.
The root keeps its number: its two halves move to new pages.
-/

namespace MillenniumDB

inductive InsertFailure
  | duplicatedRecord
  | outsidePage
  | diverges
  deriving DecidableEq

/-- The difference of two `uint32_t` in a variable of type `int_fast32_t`, which has as many bits
as the platform likes, but at least 32. -/
def fastDifference (width count minus : Nat) : Int :=
  (((count + 2 ^ 32 - minus) % 2 ^ 32 : Nat) : Int).bmod (2 ^ width)

namespace LeafPage

def zero (n maxRecords : Nat) : LeafPage :=
  ⟨0, 0, List.replicate maxRecords (List.replicate n 0)⟩

def live (page : LeafPage) : LeafPage :=
  { page with records := page.records.take page.valueCount }

end LeafPage

namespace BPlusTreeLeaf

def leafMaxRecords (n : Nat) : Nat := (mdbPageSize - 2 * 4) / (8 * n)

/-- The pages of the leaf file in the buffer, with all their slots, and how often `append_page` has
been called. -/
structure LeafFile where
  pages : List LeafPage
  appended : Nat

/-- `append_page`, as for the directory. -/
def appendPage (n : Nat) (countPages : Nat → Nat) (file : LeafFile) : Nat × LeafFile :=
  let pageNumber := countPages file.appended
  (pageNumber, ⟨file.pages ++
    List.replicate (pageNumber + 1 - file.pages.length) (.zero n (leafMaxRecords n)),
    file.appended + 1⟩)

/-- `equal_record`.  Behind the last slot it reads what the memory holds behind the page. -/
def equalRecord (record : Tuple) (page : LeafPage) (index : Nat) (behind : Tuple) : Bool :=
  page.records.getD index behind = record

/-- The part of `insert` for a page without room: the page is cut in the middle, and the second half
goes to a page that is new. -/
def split (width n : Nat) (countPages : Nat → Nat) (record : Tuple) (index pageNumber : Nat)
    (page : LeafPage) (file : LeafFile) : Except InsertFailure (Option SplitData × LeafFile) :=
  match putSaving page.valueCount index (fastDifference width page.valueCount 2) record
      page.records with
  | none => .error .outsidePage
  | some (records, lastKey) =>
    let (newPage, file) := appendPage n countPages file
    let middleIndex := (page.valueCount + 1) / 2
    let moved := (records.drop middleIndex).take (leafMaxRecords n - middleIndex) ++ [lastKey]
    let old := (file.pages.getD newPage (.zero n (leafMaxRecords n))).records
    let newRecords := moved ++ old.drop moved.length
    let pages := file.pages.set newPage ⟨leafMaxRecords n / 2 + 1, page.nextLeaf, newRecords⟩
    let pages := pages.set pageNumber ⟨middleIndex, newPage, records⟩
    -- the key of the split is the first record of the new leaf
    .ok (some ⟨newRecords.headD [], newPage⟩, { file with pages := pages })

/-- `insert`.  What the memory holds behind the page can differ each time. -/
def insert (width n : Nat) (countPages : Nat → Nat) (behind record : Tuple) (pageNumber : Nat)
    (file : LeafFile) : Except InsertFailure (Option SplitData × LeafFile) :=
  let page := file.pages.getD pageNumber (.zero n (leafMaxRecords n))
  if page.valueCount = 0 then
    .ok (none, { file with
      pages := file.pages.set pageNumber { page with
        valueCount := page.valueCount + 1, records := page.records.set 0 record } })
  else
    let index := searchIndex record page
    if equalRecord record page index behind then .error .duplicatedRecord
    else if page.valueCount < leafMaxRecords n then
      match putShifting index (fastDifference width page.valueCount 1) record page.records with
      | none => .error .outsidePage
      | some records => .ok (none, { file with
          pages := file.pages.set pageNumber { page with
            valueCount := page.valueCount + 1, records := records } })
    else split width n countPages record index pageNumber page file

end BPlusTreeLeaf

namespace BPlusTreeDir

/-- A page with the first so many of the keys in the array, and one child more. -/
def ofArrays (keyCount : Nat) (keys : List Tuple) (children : List Int) : DirPage :=
  ⟨children.headD 0, (keys.zip children.tail).take keyCount⟩

/-- Case 1 of `insert`: there is room for the key and the child to its right. -/
def putEntry (width n : Nat) (split : SplitData) (index : Nat) (page : DirPage) : Option DirPage :=
  let room := dirMaxRecords n - page.keyCount
  (putShifting index (fastDifference width page.keyCount 1) split.record
    (page.keys ++ List.replicate room [])).bind fun keys =>
  (putShifting (index + 1) (fastDifference width page.keyCount 0) split.encodedPageNumber
    (page.children ++ List.replicate room 0)).map fun children =>
  ofArrays (page.keyCount + 1) keys children

/-- The other cases: the last key and the last child are saved, for they no longer fit. -/
def putSavingEntry (width : Nat) (split : SplitData) (index : Nat) (page : DirPage) :
    Option (List Tuple × Tuple × List Int × Int) :=
  (putSaving page.keyCount index (fastDifference width page.keyCount 2) split.record
    page.keys).bind fun keys =>
  (putSaving (page.keyCount + 1) (index + 1) (fastDifference width page.keyCount 1)
    split.encodedPageNumber page.children).map fun children => (keys.1, keys.2, children.1, children.2)

/-- The second half of `insert`. -/
def placeSplit (width n : Nat) (countPages : Nat → Nat) (pageNumber : Nat) (split : SplitData)
    (file : DirFile) : Except InsertFailure (Option SplitData × DirFile) :=
  let page := file.pages.getD pageNumber .zero
  let splittedIndex := searchChildIndex split.record page
  -- case 1: no need to split this node
  if page.keyCount < dirMaxRecords n then
    match putEntry width n split splittedIndex page with
    | none => .error .outsidePage
    | some page => .ok (none, { file with pages := file.pages.set pageNumber page })
  else
    match putSavingEntry width split splittedIndex page with
    | none => .error .outsidePage
    | some (keys, lastKey, children, lastDir) =>
      let middleIndex := (page.keyCount + 1) / 2
      let left := ofArrays middleIndex (keys.take middleIndex) (children.take (middleIndex + 1))
      let right := ofArrays (dirMaxRecords n - middleIndex)
        ((keys.drop (middleIndex + 1)).take (dirMaxRecords n - (middleIndex + 1)) ++ [lastKey])
        ((children.drop (middleIndex + 1)).take (page.keyCount - middleIndex) ++ [lastDir])
      let middleKey := keys.getD middleIndex []
      -- case 2: this node is the root
      if pageNumber = 0 then
        let (newLeftPage, file) := appendPage countPages file
        let (newRightPage, file) := appendPage countPages file
        let pages := (file.pages.set newLeftPage left).set newRightPage right
        (.ok (none, { file with
          pages := pages.set pageNumber ⟨-newLeftPage, [(middleKey, -newRightPage)]⟩ }))
      -- case 3: normal split
      else
        let (newPage, file) := appendPage countPages file
        (.ok (some ⟨middleKey, -newPage⟩, { file with
          pages := (file.pages.set newPage right).set pageNumber left }))

end BPlusTreeDir

structure BptFiles where
  dir : BPlusTreeDir.DirFile
  leaf : BPlusTreeLeaf.LeafFile

namespace BptFiles

def tree (files : BptFiles) : BPlusTree := ⟨files.dir.pages, files.leaf.pages.map LeafPage.live⟩

def takeUp (width n : Nat) (countDirs : Nat → Nat) (pageNumber : Nat) :
    Option SplitData × BptFiles → Except InsertFailure (Option SplitData × BptFiles)
  | (none, files) => .ok (none, files)
  | (some split, files) => (BPlusTreeDir.placeSplit width n countDirs pageNumber split files.dir).map
      fun result => (result.1, { files with dir := result.2 })

/-- `BPlusTreeDir::insert`, with fuel for the levels of the directory. -/
def insertAt (width n : Nat) (countDirs countLeaves : Nat → Nat) (behind record : Tuple) :
    Nat → Nat → BptFiles → Except InsertFailure (Option SplitData × BptFiles)
  | 0, _, _ => .error .diverges
  | fuel + 1, pageNumber, files =>
    let page := files.dir.pages.getD pageNumber .zero
    let index := if 0 < page.keyCount then BPlusTreeDir.searchChildIndex record page else 0
    let pagePointer := page.children.getD index 0
    (if pagePointer < 0 then
        insertAt width n countDirs countLeaves behind record fuel pagePointer.natAbs files
      else
        (BPlusTreeLeaf.insert width n countLeaves behind record pagePointer.toNat files.leaf).map
          fun result => (result.1, { files with leaf := result.2 })).bind
      (takeUp width n countDirs pageNumber)

def insert (width n : Nat) (countDirs countLeaves : Nat → Nat) (behind record : Tuple)
    (files : BptFiles) : Except InsertFailure BptFiles :=
  (insertAt width n countDirs countLeaves behind record files.dir.pages.length 0 files).map Prod.snd

end BptFiles
end MillenniumDB
