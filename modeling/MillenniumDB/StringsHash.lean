import MillenniumDB.Lib.ExtendibleHash
import MillenniumDB.Lib.Runs
import MillenniumDB.ObjectIds
import MillenniumDB.BptWriter
import Mathlib.Data.Nat.Bitwise

/-!
# The hash of external strings

The import writes the hash with `StringsHashBulkImport`, the server changes it with `StringsHash`.
Both extend the same directory and buckets, but when a bucket is split the import takes the next
page of the file for the new bucket, while the server derives its page from that of the old one.
-/

namespace MillenniumDB
namespace StringsHash

def maxKeys : Nat := (mdbPageSize - 8) / (2 * 8)

def defaultGlobalDepth : Nat := 8

structure Bucket where
  localDepth : Nat
  keys : List (Nat × Nat)

def mask (depth : Nat) : Nat := 0xFFFFFFFFFFFFFFFF >>> (64 - depth)

/-- `redistribute`, as it leaves the two buckets. -/
def Bucket.redistribute (bucket other : Bucket) (mask otherSuffix : Nat) : Bucket × Bucket :=
  ({ bucket with keys := bucket.keys.filter fun key => mask &&& key.1 ≠ otherSuffix },
    { other with keys := bucket.keys.filter fun key => mask &&& key.1 = otherSuffix })

/-- The loop that lets entries of the directory name the new bucket. -/
def updateDirs (dir : Nat → Nat) (updateDirCount localDepth newSuffix newBucketNumber : Nat) :
    Nat → Nat :=
  (List.range updateDirCount).foldl
    (fun dir i => Function.update dir (i <<< localDepth ||| newSuffix) newBucketNumber) dir

/-- `duplicate_dirs`: the directory twice. -/
def duplicateDirs (globalDepth : Nat) (dir : Nat → Nat) : Nat → Nat :=
  fun i => dir (i % 1 <<< globalDepth)

/-- A depth from which on `1 << local_depth` is no bit of the word that holds it. -/
def maxDepth : Nat := 31

structure BulkImport where
  globalDepth : Nat
  dir : Nat → Nat
  pages : Nat → Bucket
  pagesSize : Nat

namespace BulkImport

def init : BulkImport where
  globalDepth := defaultGlobalDepth
  dir := id
  pages := fun _ => ⟨defaultGlobalDepth, []⟩
  pagesSize := 1 <<< defaultGlobalDepth

/-- The part of `create_id` that splits the bucket of a suffix. -/
def split (suffix : Nat) (t : BulkImport) : Option BulkImport :=
  let bucketNumber := t.dir suffix
  let bucket := t.pages bucketNumber
  let newBucketNumber := t.pagesSize
  let newBucket : Bucket := ⟨bucket.localDepth + 1, []⟩
  if maxDepth ≤ bucket.localDepth then none
  else if bucket.localDepth < t.globalDepth then
    let newSuffix := 1 <<< bucket.localDepth ||| (mask bucket.localDepth &&& suffix)
    let bucket : Bucket := { bucket with localDepth := bucket.localDepth + 1 }
    let parts := bucket.redistribute newBucket (mask bucket.localDepth) newSuffix
    some
      { t with
        dir := updateDirs t.dir (1 <<< (t.globalDepth - bucket.localDepth)) bucket.localDepth
          newSuffix newBucketNumber
        pages := Function.update (Function.update t.pages bucketNumber parts.1) newBucketNumber
          parts.2
        pagesSize := t.pagesSize + 1 }
  else if bucket.localDepth = t.globalDepth then
    let bucket : Bucket := { bucket with localDepth := bucket.localDepth + 1 }
    let newSuffix := 1 <<< t.globalDepth ||| suffix
    let globalDepth := t.globalDepth + 1
    let parts := bucket.redistribute newBucket (mask globalDepth) newSuffix
    some
      { globalDepth := globalDepth
        dir := Function.update (duplicateDirs t.globalDepth t.dir) newSuffix newBucketNumber
        pages := Function.update (Function.update t.pages bucketNumber parts.1) newBucketNumber
          parts.2
        pagesSize := t.pagesSize + 1 }
  else none

/-- The loop of `create_id`.  Each attempt after the first has a deeper bucket. -/
def createId (hash id : Nat) : Nat → BulkImport → Option BulkImport
  | 0, _ => none
  | fuel + 1, t =>
    let suffix := hash &&& mask t.globalDepth
    let bucketNumber := t.dir suffix
    let bucket := t.pages bucketNumber
    if bucket.keys.length = maxKeys then
      (t.split suffix).bind (createId hash id fuel)
    else
      some
        { t with
          pages := Function.update t.pages bucketNumber
            { bucket with keys := bucket.keys ++ [(hash, id)] } }

end BulkImport

def importStrings (xxh3 : Bytes → Nat) (strings : List (Nat × Bytes)) : Option BulkImport :=
  strings.foldlM (fun t string => t.createId (xxh3 string.2) string.1 (maxDepth + 1)) .init

end StringsHash

/-- The hash, with its pages as they are in the buffer and on disk.  Which strings there are, and
with which ids, is up to the string manager. -/
structure StringsHash where
  globalDepth : Nat
  dir : Nat → Nat
  pages : Nat → StringsHash.Bucket
  disk : Nat → StringsHash.Bucket
  dirty : Nat → Bool
  strings : List (Nat × Bytes)

namespace StringsHash

/-- Reading what the import wrote.  There is nothing behind the last page. -/
def reopen (t : BulkImport) (strings : List (Nat × Bytes)) : StringsHash :=
  let pages := fun number => if number < t.pagesSize then t.pages number else ⟨0, []⟩
  { globalDepth := t.globalDepth
    dir := t.dir
    pages := pages
    disk := pages
    dirty := fun _ => false
    strings := strings }

/-- `str_eq` of the string manager. -/
def strEq (t : StringsHash) (str : Bytes) (id : Nat) : Bool := (id, str) ∈ t.strings

def find (t : StringsHash) (str : Bytes) (hash : Nat) (bucket : Bucket) : Option Nat :=
  (bucket.keys.find? fun key => key.1 = hash ∧ t.strEq str key.2).map Prod.snd

def getStrId (xxh3 : Bytes → Nat) (t : StringsHash) (str : Bytes) : Option Nat :=
  let suffix := xxh3 str &&& mask t.globalDepth
  t.find str (xxh3 str) (t.pages (t.dir suffix))

/-- The pages after a bucket gave some of its keys to the page `newBucketNumber`, which is emptied
before.  It may be the page of the bucket itself. -/
def splitPages (pages : Nat → Bucket) (bucketNumber newBucketNumber newMask : Nat) :
    Nat → Bucket :=
  let localDepth := (pages bucketNumber).localDepth + 1
  let pages := Function.update pages bucketNumber { pages bucketNumber with localDepth := localDepth }
  let pages := Function.update pages newBucketNumber ⟨localDepth, []⟩
  let parts := (pages bucketNumber).redistribute (pages newBucketNumber) newMask newBucketNumber
  Function.update (Function.update pages bucketNumber parts.1) newBucketNumber parts.2

/-- The part of `get_or_create_str_id` that splits the bucket of a suffix.  No page that changes
is made dirty. -/
def split (suffix : Nat) (t : StringsHash) : Option StringsHash :=
  let bucketNumber := t.dir suffix
  let localDepth := (t.pages bucketNumber).localDepth
  if maxDepth ≤ localDepth then none
  else if localDepth < t.globalDepth then
    let newBucketNumber := bucketNumber ||| 1 <<< localDepth
    let pages := splitPages t.pages bucketNumber newBucketNumber (mask (localDepth + 1))
    if (pages bucketNumber).keys.length + (pages newBucketNumber).keys.length = maxKeys then
      some
        { t with
          dir := updateDirs t.dir (1 <<< (t.globalDepth - (localDepth + 1))) (localDepth + 1)
            newBucketNumber newBucketNumber
          pages := pages }
    else none
  else if suffix = bucketNumber ∧ localDepth = t.globalDepth then
    let newBucketNumber := bucketNumber ||| 1 <<< t.globalDepth
    let pages := splitPages t.pages bucketNumber newBucketNumber (mask (t.globalDepth + 1))
    if (pages bucketNumber).keys.length + (pages newBucketNumber).keys.length = maxKeys then
      some
        { t with
          globalDepth := t.globalDepth + 1
          dir := Function.update (duplicateDirs t.globalDepth t.dir) newBucketNumber
            newBucketNumber
          pages := pages }
    else none
  else none

/-- The loop of `get_or_create_str_id`; `createNew` gives the id of a new string. -/
def getOrCreateStrId (createNew : List (Nat × Bytes) → Bytes → Nat) (str : Bytes) (hash : Nat) :
    Nat → StringsHash → Option (Nat × StringsHash)
  | 0, _ => none
  | fuel + 1, t =>
    let suffix := hash &&& mask t.globalDepth
    let bucketNumber := t.dir suffix
    let bucket := t.pages bucketNumber
    match t.find str hash bucket with
    | some id => some (id, t)
    | none =>
      if bucket.keys.length = maxKeys then
        (t.split suffix).bind (getOrCreateStrId createNew str hash fuel)
      else
        let newId := createNew t.strings str
        some (newId,
          { t with
            pages := Function.update t.pages bucketNumber
              { bucket with keys := bucket.keys ++ [(hash, newId)] }
            dirty := Function.update t.dirty bucketNumber true
            strings := t.strings ++ [(newId, str)] })

/-- A page leaves the buffer: it is written if it is dirty, and will be read from disk again. -/
def evict (number : Nat) (t : StringsHash) : StringsHash :=
  if t.dirty number then
    { t with
      disk := Function.update t.disk number (t.pages number)
      dirty := Function.update t.dirty number false }
  else { t with pages := Function.update t.pages number (t.disk number) }

end StringsHash
end MillenniumDB
