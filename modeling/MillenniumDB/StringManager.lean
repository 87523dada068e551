import MillenniumDB.GraphObjects
import MillenniumDB.CatalogFile
import Mathlib.Data.List.TakeWhile

/-!
# `StringManager`

The strings are in a file of blocks.  The first bytes of the file are the offset after the last
string, which the importer writes for the file and the string manager for the last block.
-/

namespace MillenniumDB
namespace StringManager

def stringBlockSize : Nat := 1024 * 1024 * 64

def metadataSize : Nat := 8

abbrev Block := Nat → UInt8

def memcpy (block : Block) (offset : Nat) (bytes : Bytes) : Block := fun i =>
  if offset ≤ i then bytes[i - offset]?.getD (block i) else block i

/-- Bytes of a block; `none` past its end. -/
def Block.read (block : Block) (offset n : Nat) : Option Bytes :=
  if offset + n ≤ stringBlockSize then some ((List.range n).map fun i => block (offset + i)) else none

/-- A block of the file in memory: what is written to a private mapping does not reach the file. -/
inductive Mapping
  | shared (bytes : Block)
  | priv (bytes disk : Block)

namespace Mapping

def bytes : Mapping → Block
  | shared bytes => bytes
  | priv bytes _ => bytes

def disk : Mapping → Block
  | shared bytes => bytes
  | priv _ disk => disk

def memcpy (offset : Nat) (bytes : Bytes) : Mapping → Mapping
  | shared block => shared (StringManager.memcpy block offset bytes)
  | priv block disk => priv (StringManager.memcpy block offset bytes) disk

def IsShared : Mapping → Prop
  | shared _ => True
  | priv _ _ => False

end Mapping

/-- The bytes of a length, as the importer and `create_new` write them. -/
def encodeLen (remainingLen : Nat) : Bytes :=
  if remainingLen = 0 then []
  else
    (if remainingLen ≤ 127 then UInt8.ofNat remainingLen
      else UInt8.ofNat (remainingLen &&& 0x7F) ||| 0x80) :: encodeLen (remainingLen >>> 7)
termination_by remainingLen
decreasing_by
  rw [Nat.shiftRight_eq_div_pow]
  omega

/-- The loop of `get_string_len`; `none` past the end of the block, and where the shift is undefined. -/
def getStringLenLoop (block : Block) (offset shiftSize decoded bytesForLen : Nat) : Option (Nat × Nat) :=
  if offset < stringBlockSize ∧ shiftSize < 64 then
    let b := block offset
    if b ≤ 127 then some (decoded ||| (b.toNat <<< shiftSize) % 2 ^ 64, bytesForLen + 1)
    else
      getStringLenLoop block (offset + 1) (shiftSize + 7)
        (decoded ||| ((b &&& 0x7F).toNat <<< shiftSize) % 2 ^ 64) (bytesForLen + 1)
  else none
termination_by stringBlockSize - offset

/-- `get_string_len`, with the number of bytes read. -/
def getStringLen (block : Block) (offset : Nat) : Option (Nat × Nat) :=
  getStringLenLoop block offset 0 0 0

/-- `__builtin_ctz` of the low 32 bits; not defined when they are zero. -/
def ctz (n : Nat) : Option Nat := (List.range 32).find? fun i => n.testBit i

/-- The room that `create_new` wants for a length; `-1 / 7` is zero. -/
def bytesForLen (size : Nat) : Option Nat := (ctz size).map fun zeros => (zeros - 1) / 7 + 1

structure State where
  stringBlocks : List Mapping
  lastBlockOffset : Nat

namespace State

def write (st : State) (block offset : Nat) (bytes : Bytes) : State :=
  { st with stringBlocks := st.stringBlocks.modify block (Mapping.memcpy offset bytes) }

/-- Bytes written at the end of the last block, which is then after them; `none` past the block. -/
def writeLast (st : State) (bytes : Bytes) : Option State :=
  if st.lastBlockOffset + bytes.length ≤ stringBlockSize then
    some { st.write (st.stringBlocks.length - 1) st.lastBlockOffset bytes with
      lastBlockOffset := st.lastBlockOffset + bytes.length }
  else none

/-- `append_new_block`: the file gets a copy of the first block, and the mapping of it is private. -/
def appendNewBlock (st : State) : Option State :=
  st.stringBlocks[0]?.map fun first =>
    { stringBlocks := st.stringBlocks ++ [.priv first.bytes first.bytes], lastBlockOffset := 0 }

def updateLastBlockOffset (st : State) : State := st.write 0 0 (writeUint64 st.lastBlockOffset)

def new (file : List Block) : Option State :=
  file[0]?.map fun first =>
    { stringBlocks := file.map .shared, lastBlockOffset := ofBytes ((List.range 8).map first) }

def reopen (st : State) : Option State := new (st.stringBlocks.map Mapping.disk)

/-- The loop of `create_new` that copies the string.  Every part of it is copied from the beginning of
the string. -/
def copyString (str : Bytes) : Nat → Nat → State → Option State
  | 0, _, _ => none
  | fuel + 1, remainingWrite, st =>
    if remainingWrite = 0 then some st
    else
      let remainingInBlock := stringBlockSize - st.lastBlockOffset
      if remainingWrite ≤ remainingInBlock then
        (st.writeLast (str.take remainingWrite)).bind (copyString str fuel 0)
      else do
        let st ← st.writeLast (str.take remainingInBlock)
        let st ← st.appendNewBlock
        copyString str fuel (remainingWrite - remainingInBlock) st

/-- The part of `create_new` that wants room for the length in the last block. -/
def makeRoom (st : State) (bytesForLen : Nat) : Option State :=
  if stringBlockSize ≤ st.lastBlockOffset + bytesForLen then st.appendNewBlock else some st

/-- `create_new`; `none` when it writes past a block, or what it does is not defined. -/
def createNew (st : State) (str : Bytes) : Option (Nat × State) := do
  let bytesForLen ← bytesForLen str.length
  let st ← st.makeRoom bytesForLen
  let res := (st.stringBlocks.length - 1) * stringBlockSize + st.lastBlockOffset
  let st ← st.writeLast (encodeLen str.length)
  let st ← copyString str (str.length + 3) str.length st
  some (res, st.updateLastBlockOffset)

end State

/-- The loop of `print`, over the blocks from the current one on. -/
def printLoop (ptr currentOffset remainingString : Nat) : List Mapping → Option Bytes
  | [] => none
  | block :: blocks =>
    let remainingInPage := stringBlockSize - currentOffset
    if remainingString < remainingInPage then block.bytes.read ptr remainingString
    else do
      let written ← block.bytes.read ptr remainingInPage
      let rest ← printLoop 0 0 (remainingString - remainingInPage) blocks
      some (written ++ rest)

def State.print (st : State) (id : Nat) : Option Bytes := do
  let block ← st.stringBlocks[id / stringBlockSize]?
  let (len, bytesForLen) ← getStringLen block.bytes (id % stringBlockSize)
  printLoop (id % stringBlockSize + bytesForLen) ((id + bytesForLen) % stringBlockSize) len
    (st.stringBlocks.drop (id / stringBlockSize))

structure StringExternalIter where
  currentBlock : Block
  bytesLeft : Nat
  currentPageOffset : Nat

/-- `next_char`.  It goes to the next block only after it has read past the end of this one. -/
def StringExternalIter.nextChar (it : StringExternalIter) : Option (UInt8 × StringExternalIter) :=
  if it.bytesLeft = 0 then some (0, it)
  else if it.currentPageOffset < stringBlockSize then
    some (it.currentBlock it.currentPageOffset,
      { it with bytesLeft := it.bytesLeft - 1, currentPageOffset := it.currentPageOffset + 1 })
  else none

/-- `compare` of an external string with a string in memory. -/
def compareExternal : StringExternalIter → Bytes → Option Int
  | it, [] => it.nextChar.map fun (c, _) => (c.toNat : Int)
  | it, d :: str => do
    let (c, it) ← it.nextChar
    if c = 0 then some ((c.toNat : Int) - d.toNat)
    else if c = d then compareExternal it str
    else some ((c.toNat : Int) - d.toNat)

def State.strEq (st : State) (str : Bytes) (id : Nat) : Option Bool := do
  let block ← st.stringBlocks[id / stringBlockSize]?
  let (len, bytesForLen) ← getStringLen block.bytes (id % stringBlockSize)
  if len ≠ str.length then some false
  else do
    let start := id + bytesForLen
    let block ← st.stringBlocks[start / stringBlockSize]?
    let comparison ← compareExternal ⟨block.bytes, len, start % stringBlockSize⟩ str
    some (comparison = 0)

namespace Import

def minPageRemainingBytes : Nat := 9
def maxLenBytes : Nat := 5

structure ExternalStrings where
  hash : Bytes → UInt64
  bytes : Nat → UInt8
  set : List (Nat × Bytes)
  stop : Nat

/-- `get_or_create_external_string_id`; `none` when there is no memory for a larger buffer. -/
def getOrCreateExternalStringId (st : ExternalStrings) (str : Bytes) : Option (Nat × ExternalStrings) :=
  if 2 ^ 63 ≤ st.stop + str.length + minPageRemainingBytes + maxLenBytes + 1 then none
  else
    let bytes := memcpy st.bytes st.stop (encodeLen str.length ++ str)
    match findString st.hash st.set str with
    | some found => some (found.1, { st with bytes })
    | none =>
      let stop := st.stop + (str.length + (encodeLen str.length).length)
      let remainingInBlock := stringBlockSize - stop % stringBlockSize
      some (st.stop,
        { hash := st.hash
          bytes
          set := (st.stop, str) :: st.set
          stop := if remainingInBlock < minPageRemainingBytes then stop + remainingInBlock else stop })

/-- The strings of an import, in a buffer that holds anything at first. -/
def externalStrings (hash : Bytes → UInt64) (buffer : Nat → UInt8) (strs : List Bytes) : Option ExternalStrings :=
  strs.foldlM (fun st str => (getOrCreateExternalStringId st str).map Prod.snd)
    { hash, bytes := buffer, set := [], stop := metadataSize }

/-- The byte of the strings file at a position: after the end comes a copy of the beginning. -/
def fileByte (st : ExternalStrings) (p : Nat) : UInt8 :=
  let bytes := memcpy st.bytes 0 (writeUint64 st.stop)
  if p < st.stop then bytes p else bytes (p - st.stop)

/-- The blocks of the strings file, up to the next multiple of the block size. -/
def stringsFile (st : ExternalStrings) : List Block :=
  let remaining := stringBlockSize - st.stop % stringBlockSize
  (List.range ((st.stop + remaining) / stringBlockSize)).map fun block i =>
    fileByte st (block * stringBlockSize + i)

end Import

inductive Call
  | createNew (str : Bytes)
  | reopen

def call (st : List (Nat × Bytes) × State) : Call → Option (List (Nat × Bytes) × State)
  | .createNew str => (st.2.createNew str).map fun (id, st') => (st.1 ++ [(id, str)], st')
  | .reopen => st.2.reopen.map fun st' => (st.1, st')

/-- The ids that calls return for their strings, and the state after the calls. -/
def run (st : State) (calls : List Call) : Option (List (Nat × Bytes) × State) :=
  calls.foldlM call ([], st)

def record (str : Bytes) : Bytes := encodeLen str.length ++ str

structure Denotes (st : State) (id : Nat) (str : Bytes) : Prop where
  equal : st.strEq str id = some true
  different : ∀ other, 0 ∉ other → other ≠ str → st.strEq other id = some false
  print : st.print id = some str

def State.byteAt (st : State) (p : Nat) : Option UInt8 :=
  st.stringBlocks[p / stringBlockSize]?.map fun block => block.bytes (p % stringBlockSize)

/-- The ids keep their strings, and no string is written over one that was there. -/
structure Kept (file : Import.ExternalStrings) (returned : List (Nat × Bytes)) (st : State) : Prop where
  denotes : ∀ r ∈ returned, Denotes st r.1 r.2
  imported : ∀ r ∈ file.set, r.2 ≠ [] → r.1 % stringBlockSize + (record r.2).length ≤ stringBlockSize →
    Denotes st r.1 r.2
  apart : returned.Pairwise fun older newer => older.1 + (record older.2).length ≤ newer.1
  after : ∀ r ∈ returned, file.stop ≤ r.1
  bytes : ∀ p, metadataSize ≤ p → p < file.stop → st.byteAt p = some (Import.fileByte file p)

/-- Where the next string goes: a new block when there is no room for its length. -/
def State.start (st : State) (str : Bytes) : Nat :=
  if stringBlockSize ≤ st.lastBlockOffset + (bytesForLen str.length).getD 0 then 0 else st.lastBlockOffset

/-- When a call does what it should: the string is in one block and does not end it, and no block is
lost by the next start. -/
def Call.Fits (st : State) : Call → Prop
  | .createNew str => str ≠ [] ∧ st.start str + (record str).length < stringBlockSize
  | .reopen => ∀ block ∈ st.stringBlocks, block.IsShared

def Meets (st : State) (calls : List Call) : Prop :=
  ∀ before c after, calls = before ++ c :: after → ∀ r, run st before = some r → c.Fits r.2

theorem stringBlockSize_eq : stringBlockSize = 67108864 := rfl

theorem encodeLen_zero : encodeLen 0 = [] := by
  rw [encodeLen, if_pos rfl]

theorem encodeLen_of_le {n : Nat} (hpos : n ≠ 0) (hle : n ≤ 127) : encodeLen n = [UInt8.ofNat n] := by
  have hrest : n >>> 7 = 0 := by
    rw [Nat.shiftRight_eq_div_pow]
    omega
  rw [encodeLen, if_neg hpos, if_pos hle, hrest, encodeLen_zero]

theorem encodeLen_of_gt {n : Nat} (hgt : 127 < n) :
    encodeLen n = (UInt8.ofNat (n &&& 0x7F) ||| 0x80) :: encodeLen (n / 128) := by
  rw [encodeLen, if_neg (by omega), if_neg (by omega), Nat.shiftRight_eq_div_pow]

theorem length_encodeLen_pos {n : Nat} (hpos : n ≠ 0) : 0 < (encodeLen n).length := by
  rw [encodeLen, if_neg hpos, List.length_cons]
  omega

theorem toNat_more (n : Nat) : (UInt8.ofNat (n &&& 0x7F) ||| 0x80).toNat = n % 128 + 128 := by
  have hlow : n &&& 0x7F = n % 128 := Nat.and_two_pow_sub_one_eq_mod n 7
  have hbyte : (UInt8.ofNat (n % 128)).toNat = n % 128 := by
    rw [UInt8.toNat_ofNat']
    omega
  have hbit : (0x80 : UInt8).toNat = 2 ^ 7 * 1 := rfl
  rw [UInt8.toNat_or, hlow, hbyte, hbit, Nat.or_comm, ← Nat.two_pow_add_eq_or_of_lt (by omega)]
  omega

theorem low_more (n : Nat) : ((UInt8.ofNat (n &&& 0x7F) ||| 0x80) &&& 0x7F).toNat = n % 128 := by
  have hmask : (0x7F : UInt8).toNat = 2 ^ 7 - 1 := rfl
  rw [UInt8.toNat_and, toNat_more, hmask, Nat.and_two_pow_sub_one_eq_mod]
  omega

def bytesAt (block : Block) (offset n : Nat) : Bytes := (List.range n).map fun i => block (offset + i)

theorem length_bytesAt (block : Block) (offset n : Nat) : (bytesAt block offset n).length = n := by
  rw [bytesAt, List.length_map, List.length_range]

theorem getElem_bytesAt {block : Block} {offset n i : Nat} (h : i < (bytesAt block offset n).length) :
    (bytesAt block offset n)[i] = block (offset + i) := by
  simp [bytesAt]

theorem bytesAt_succ (block : Block) (offset n : Nat) :
    bytesAt block offset (n + 1) = block offset :: bytesAt block (offset + 1) n := by
  rw [bytesAt, List.range_succ_eq_map, List.map_cons, List.map_map]
  congr 1
  apply List.map_congr_left
  intro i _
  show block (offset + (i + 1)) = block (offset + 1 + i)
  congr 1
  omega

theorem bytesAt_add (block : Block) (offset m n : Nat) :
    bytesAt block offset (m + n) = bytesAt block offset m ++ bytesAt block (offset + m) n := by
  induction m generalizing offset with
  | zero => simp [bytesAt]
  | succ m ih =>
    rw [Nat.succ_add, bytesAt_succ, bytesAt_succ, ih, List.cons_append]
    congr 3
    omega

theorem read_eq {block : Block} {offset n : Nat} (h : offset + n ≤ stringBlockSize) :
    block.read offset n = some (bytesAt block offset n) := by
  rw [Block.read, if_pos h, bytesAt]

theorem or_shiftLeft {decoded shift b : Nat} (hdecoded : decoded < 2 ^ shift) (hb : b * 2 ^ shift < 2 ^ 64) :
    decoded ||| (b <<< shift) % 2 ^ 64 = decoded + b * 2 ^ shift := by
  rw [Nat.shiftLeft_eq, Nat.mod_eq_of_lt hb, Nat.or_comm, ← Nat.shiftLeft_eq,
    ← Nat.shiftLeft_add_eq_or_of_lt hdecoded, Nat.shiftLeft_eq]
  omega

theorem getStringLenLoop_encodeLen (n : Nat) {block : Block} {offset shift decoded count : Nat}
    (hpos : n ≠ 0) (hbytes : bytesAt block offset (encodeLen n).length = encodeLen n)
    (hfits : offset + (encodeLen n).length ≤ stringBlockSize) (hdecoded : decoded < 2 ^ shift)
    (hn : decoded + n * 2 ^ shift < 2 ^ 64) :
    getStringLenLoop block offset shift decoded count =
      some (decoded + n * 2 ^ shift, count + (encodeLen n).length) := by
  induction n using Nat.strongRecOn generalizing offset shift decoded count with
  | ind n ih =>
    have hshift : shift < 64 := by
      have hlt : 2 ^ shift < 2 ^ 64 :=
        lt_of_le_of_lt (Nat.le_mul_of_pos_left _ (Nat.pos_of_ne_zero hpos)) (by omega)
      exact (Nat.pow_lt_pow_iff_right (by decide)).mp hlt
    have hlength := length_encodeLen_pos hpos
    rw [getStringLenLoop, if_pos ⟨by omega, hshift⟩]
    by_cases hle : n ≤ 127
    · rw [encodeLen_of_le hpos hle] at hbytes ⊢
      have hblock : block offset = UInt8.ofNat n := by
        simpa [bytesAt] using hbytes
      have hbyte : (UInt8.ofNat n).toNat = n := by
        rw [UInt8.toNat_ofNat']
        omega
      have hsmall : UInt8.ofNat n ≤ 127 := by
        rw [UInt8.le_iff_toNat_le, hbyte]
        exact hle
      simp only [hblock, if_pos hsmall, hbyte, or_shiftLeft hdecoded (by omega : n * 2 ^ shift < 2 ^ 64),
        List.length_singleton]
    · have hrest : n / 128 ≠ 0 := by omega
      rw [encodeLen_of_gt (by omega)] at hbytes hfits ⊢
      rw [List.length_cons, bytesAt_succ] at hbytes
      obtain ⟨hblock, hbytes⟩ := List.cons.inj hbytes
      have hlarge : ¬ (UInt8.ofNat (n &&& 0x7F) ||| 0x80) ≤ 127 := by
        rw [UInt8.le_iff_toNat_le, toNat_more]
        have h127 : (127 : UInt8).toNat = 127 := rfl
        omega
      have hpow : 2 ^ (shift + 7) = 2 ^ shift * 128 := Nat.pow_add 2 shift 7
      have hsum : n * 2 ^ shift = n % 128 * 2 ^ shift + n / 128 * 2 ^ (shift + 7) := by
        calc n * 2 ^ shift = (n % 128 + 128 * (n / 128)) * 2 ^ shift := by rw [Nat.mod_add_div]
          _ = n % 128 * 2 ^ shift + n / 128 * 2 ^ (shift + 7) := by
            rw [hpow]
            ring
      have hlow : n % 128 * 2 ^ shift ≤ 127 * 2 ^ shift := Nat.mul_le_mul_right _ (by omega)
      rw [List.length_cons] at hfits
      simp only [hblock, if_neg hlarge, low_more,
        or_shiftLeft hdecoded (by omega : n % 128 * 2 ^ shift < 2 ^ 64)]
      rw [ih (n / 128) (by omega) hrest hbytes (by omega) (by omega) (by omega), List.length_cons]
      congr 2 <;> omega

theorem getStringLen_encodeLen {n : Nat} {block : Block} {offset : Nat} (hpos : n ≠ 0)
    (hbytes : bytesAt block offset (encodeLen n).length = encodeLen n)
    (hfits : offset + (encodeLen n).length ≤ stringBlockSize) (hn : n < 2 ^ 64) :
    getStringLen block offset = some (n, (encodeLen n).length) := by
  have hloop : getStringLenLoop block offset 0 0 0 = some (0 + n * 2 ^ 0, 0 + (encodeLen n).length) :=
    getStringLenLoop_encodeLen n hpos hbytes hfits (by decide) (by omega)
  rw [getStringLen, hloop]
  congr 2 <;> omega

theorem compare_eq_zero_iff_eq {str other : Bytes} (hzero : 0 ∉ other)
    (hlength : str.length = other.length) : compare str other = 0 ↔ str = other := by
  rw [compare_eq_zero_iff, cString_eq_self hzero]
  constructor
  · intro heq
    have hinit : cString str <+: str := List.takeWhile_prefix _
    rw [heq] at hinit
    exact (List.IsPrefix.eq_of_length hinit hlength.symm).symm
  · intro heq
    rw [heq, cString_eq_self hzero]

theorem compareExternal_eq (it : StringExternalIter) (str : Bytes)
    (hfits : it.currentPageOffset + it.bytesLeft ≤ stringBlockSize) :
    compareExternal it str =
      some (compare (bytesAt it.currentBlock it.currentPageOffset it.bytesLeft) str) := by
  induction str generalizing it with
  | nil =>
    obtain ⟨block, n, offset⟩ := it
    cases n with
    | zero => rfl
    | succ n =>
      have hlt : offset < stringBlockSize := by
        simp only at hfits
        omega
      simp only [compareExternal, StringExternalIter.nextChar, if_neg (Nat.succ_ne_zero n), if_pos hlt,
        bytesAt_succ, Option.map_some, compare]
  | cons d str ih =>
    obtain ⟨block, n, offset⟩ := it
    cases n with
    | zero =>
      simp [compareExternal, StringExternalIter.nextChar, bytesAt, compare]
    | succ n =>
      simp only at hfits
      have hlt : offset < stringBlockSize := by omega
      have hrest := ih ⟨block, n, offset + 1⟩ (by simp only; omega)
      simp only at hrest
      simp only [compareExternal, StringExternalIter.nextChar, if_neg (Nat.succ_ne_zero n), if_pos hlt,
        bytesAt_succ, compare, Nat.add_sub_cancel, hrest, Option.bind_eq_bind, Option.bind_some]
      split_ifs <;> rfl

/-- A string without zeros that equals an external one is in one block with it: the iterator never gets
to a second one. -/
theorem le_of_compareExternal (it : StringExternalIter) {str : Bytes} (hzero : 0 ∉ str)
    (hlength : it.bytesLeft = str.length) (hfits : it.currentPageOffset ≤ stringBlockSize)
    (heq : compareExternal it str = some 0) : it.currentPageOffset + it.bytesLeft ≤ stringBlockSize := by
  induction str generalizing it with
  | nil =>
    rw [hlength, List.length_nil]
    exact hfits
  | cons d str ih =>
    obtain ⟨block, n, offset⟩ := it
    simp only [List.length_cons] at hlength hfits ⊢
    subst hlength
    by_cases hlt : offset < stringBlockSize
    · simp only [compareExternal, StringExternalIter.nextChar, if_neg (Nat.succ_ne_zero _), if_pos hlt,
        Option.bind_eq_bind, Option.bind_some, Nat.add_sub_cancel] at heq
      rw [List.mem_cons, not_or] at hzero
      by_cases hd : block offset = d
      · have hne : block offset ≠ 0 := hd ▸ Ne.symm hzero.1
        rw [if_neg hne, if_pos hd] at heq
        have hle := ih ⟨block, str.length, offset + 1⟩ hzero.2 rfl hlt heq
        simp only at hle
        omega
      · have hne : (block offset).toNat ≠ d.toNat := fun h => hd (UInt8.toNat_inj.mp h)
        have hdiff : some (((block offset).toNat : Int) - d.toNat) = some 0 := by
          rw [if_neg hd, ite_self] at heq
          exact heq
        have hzero' := Option.some.inj hdiff
        omega
    · simp only [compareExternal, StringExternalIter.nextChar, if_neg (Nat.succ_ne_zero _), if_neg hlt,
        Option.bind_eq_bind, Option.bind_none] at heq
      cases heq

theorem Mapping.bytes_memcpy (m : Mapping) (offset : Nat) (bytes : Bytes) :
    (m.memcpy offset bytes).bytes = StringManager.memcpy m.bytes offset bytes := by
  cases m <;> rfl

theorem memcpy_of_lt {block : Block} {offset i : Nat} (bytes : Bytes) (h : i < offset) :
    memcpy block offset bytes i = block i := by
  rw [memcpy, if_neg (by omega)]

theorem memcpy_of_le {block : Block} {offset i : Nat} {bytes : Bytes} (h : offset + bytes.length ≤ i) :
    memcpy block offset bytes i = block i := by
  rw [memcpy, if_pos (by omega), List.getElem?_eq_none (by omega), Option.getD_none]

theorem memcpy_add {block : Block} {offset i : Nat} {bytes : Bytes} (h : i < bytes.length) :
    memcpy block offset bytes (offset + i) = bytes[i] := by
  rw [memcpy, if_pos (by omega), Nat.add_sub_cancel_left, List.getElem?_eq_getElem h, Option.getD_some]

theorem bytesAt_memcpy (block : Block) (offset : Nat) (bytes : Bytes) :
    bytesAt (memcpy block offset bytes) offset bytes.length = bytes := by
  apply List.ext_getElem (length_bytesAt _ _ _)
  intro i _ hi
  rw [getElem_bytesAt, memcpy_add hi]

namespace State

section

variable {st st' : State} {bytes str : Bytes} {block offset p : Nat}

theorem length_write : (st.write block offset bytes).stringBlocks.length = st.stringBlocks.length := by
  rw [write, List.length_modify]

theorem getElem?_write (n : Nat) : (st.write block offset bytes).stringBlocks[n]? =
    if block = n then st.stringBlocks[n]?.map (Mapping.memcpy offset bytes) else st.stringBlocks[n]? := by
  rw [write, List.getElem?_modify]
  by_cases h : block = n
  · simp only [if_pos h]
    rfl
  · simp only [if_neg h]
    cases st.stringBlocks[n]? <;> rfl

theorem byteAt_write (h : p < block * stringBlockSize + offset ∨
    block * stringBlockSize + offset + bytes.length ≤ p ∧ p / stringBlockSize = block ∨
      p / stringBlockSize ≠ block) : (st.write block offset bytes).byteAt p = st.byteAt p := by
  have hB := stringBlockSize_eq
  rw [byteAt, byteAt, getElem?_write]
  by_cases hblock : block = p / stringBlockSize
  · rw [if_pos hblock]
    cases st.stringBlocks[p / stringBlockSize]? with
    | none => rfl
    | some m =>
      have hp := Nat.div_add_mod' p stringBlockSize
      rw [← hblock] at hp
      simp only [Option.map_some, Mapping.bytes_memcpy]
      rcases h with hlt | ⟨hle, _⟩ | hne
      · rw [memcpy_of_lt bytes (by omega)]
      · rw [memcpy_of_le (by omega)]
      · exact absurd hblock.symm hne
  · rw [if_neg hblock]

theorem block_div {i : Nat} (h : i < stringBlockSize) :
    (block * stringBlockSize + i) / stringBlockSize = block := by
  have hpos : 0 < stringBlockSize := by decide
  rw [Nat.mul_comm, Nat.mul_add_div hpos, Nat.div_eq_of_lt h, Nat.add_zero]

theorem block_mod {i : Nat} (h : i < stringBlockSize) :
    (block * stringBlockSize + i) % stringBlockSize = i := by
  rw [Nat.mul_add_mod_self_right, Nat.mod_eq_of_lt h]

theorem byteAt_write_add (hblock : block < st.stringBlocks.length)
    (hfits : offset + bytes.length ≤ stringBlockSize) {i : Nat} (hi : i < bytes.length) :
    (st.write block offset bytes).byteAt (block * stringBlockSize + offset + i) = some bytes[i] := by
  rw [Nat.add_assoc, byteAt, block_div (by omega), block_mod (by omega), getElem?_write, if_pos rfl,
    List.getElem?_eq_getElem hblock]
  simp only [Option.map_some, Mapping.bytes_memcpy, memcpy_add hi]

def last (st : State) : Nat := (st.stringBlocks.length - 1) * stringBlockSize + st.lastBlockOffset

def next (st : State) : Nat :=
  if st.lastBlockOffset < stringBlockSize then st.last else st.stringBlocks.length * stringBlockSize

structure WellFormed (st : State) : Prop where
  nonempty : 0 < st.stringBlocks.length
  saved : ∀ first, st.stringBlocks[0]? = some first →
    ofBytes ((List.range 8).map first.bytes) = st.lastBlockOffset
  metadata : st.stringBlocks.length = 1 → metadataSize ≤ st.lastBlockOffset

theorem writeLast_spec (hblocks : 0 < st.stringBlocks.length)
    (hfits : st.lastBlockOffset + bytes.length ≤ stringBlockSize) :
    ∃ st', st.writeLast bytes = some st' ∧ st'.lastBlockOffset = st.lastBlockOffset + bytes.length ∧
      st'.stringBlocks.length = st.stringBlocks.length ∧
      (∀ p < st.last, st'.byteAt p = st.byteAt p) ∧
      ∀ i (hi : i < bytes.length), st'.byteAt (st.last + i) = some bytes[i] := by
  refine ⟨_, if_pos hfits, rfl, length_write, fun p hp => ?_, fun i hi => ?_⟩
  · exact byteAt_write (Or.inl hp)
  · exact byteAt_write_add (Nat.sub_lt hblocks Nat.one_pos) hfits hi

theorem copyString_eq (hpos : str ≠ []) (hfits : st.lastBlockOffset + str.length ≤ stringBlockSize)
    (fuel : Nat) : copyString str (fuel + 2) str.length st = st.writeLast str := by
  have hne : str.length ≠ 0 := mt List.length_eq_zero_iff.mp hpos
  have hdone : copyString str (fuel + 1) 0 = some := by
    funext st'
    rw [copyString, if_pos rfl]
  rw [copyString, if_neg hne]
  simp only [if_pos (by omega : str.length ≤ stringBlockSize - st.lastBlockOffset), List.take_length,
    hdone]
  exact Option.bind_fun_some _

theorem bytesForLen_of_lt {size : Nat} (hpos : size ≠ 0) (hlt : size < 2 ^ 32) :
    ∃ n, bytesForLen size = some n := by
  have hfound : (ctz size).isSome := by
    rw [ctz, List.find?_isSome]
    obtain ⟨i, hi⟩ := Nat.exists_testBit_of_ne_zero hpos
    refine ⟨i, List.mem_range.mpr ?_, hi⟩
    by_contra hge
    have hlarge := Nat.pow_le_pow_right (by decide : 0 < 2) (not_lt.mp hge)
    have hbit := Nat.ge_two_pow_of_testBit hi
    omega
  obtain ⟨zeros, hzeros⟩ := Option.isSome_iff_exists.mp hfound
  exact ⟨(zeros - 1) / 7 + 1, by rw [bytesForLen, hzeros, Option.map_some]⟩

theorem appendNewBlock_spec (hblocks : 0 < st.stringBlocks.length) :
    ∃ st', st.appendNewBlock = some st' ∧ st'.lastBlockOffset = 0 ∧
      st'.stringBlocks.length = st.stringBlocks.length + 1 ∧
      ∀ p < st.stringBlocks.length * stringBlockSize, st'.byteAt p = st.byteAt p := by
  refine ⟨_, by rw [appendNewBlock, List.getElem?_eq_getElem hblocks, Option.map_some], rfl, ?_,
    fun p hp => ?_⟩
  · rw [List.length_append, List.length_singleton]
  · have hlt : p / stringBlockSize < st.stringBlocks.length :=
      (Nat.div_lt_iff_lt_mul (by decide)).mpr hp
    rw [byteAt, byteAt, List.getElem?_append_left hlt]

theorem updateLastBlockOffset_spec (hblocks : 0 < st.stringBlocks.length)
    (hoffset : st.lastBlockOffset < 2 ^ 64) :
    (∀ first, st.updateLastBlockOffset.stringBlocks[0]? = some first →
      ofBytes ((List.range 8).map first.bytes) = st.lastBlockOffset) ∧
      ∀ p, metadataSize ≤ p → st.updateLastBlockOffset.byteAt p = st.byteAt p := by
  have hlength : (writeUint64 st.lastBlockOffset).length = 8 := rfl
  constructor
  · intro first hfirst
    rw [updateLastBlockOffset, getElem?_write, if_pos rfl, List.getElem?_eq_getElem hblocks,
      Option.map_some, Option.some.injEq] at hfirst
    rw [← hfirst, Mapping.bytes_memcpy]
    have hread : (List.range 8).map
        (memcpy st.stringBlocks[0].bytes 0 (writeUint64 st.lastBlockOffset)) =
          writeUint64 st.lastBlockOffset := by
      have hbytes := bytesAt_memcpy st.stringBlocks[0].bytes 0 (writeUint64 st.lastBlockOffset)
      rw [bytesAt, hlength] at hbytes
      simpa only [Nat.zero_add] using hbytes
    rw [hread, ofBytes_writeUint64 hoffset]
  · intro p hp
    have hmeta : metadataSize = 8 := rfl
    apply byteAt_write
    rw [hlength]
    by_cases hblock : p / stringBlockSize = 0
    · exact Or.inr (Or.inl ⟨by omega, hblock⟩)
    · exact Or.inr (Or.inr hblock)

/-- A string with its length, in one block; there is a block after a string that ends its own. -/
structure Stored (st : State) (id : Nat) (str : Bytes) : Prop where
  nonempty : str ≠ []
  fits : id % stringBlockSize + (record str).length ≤ stringBlockSize
  more : id % stringBlockSize + (record str).length = stringBlockSize →
    id / stringBlockSize + 1 < st.stringBlocks.length
  bytes : ∀ i (hi : i < (record str).length), st.byteAt (id + i) = some (record str)[i]

theorem length_record (str : Bytes) : (record str).length = (encodeLen str.length).length + str.length := by
  rw [record, List.length_append]

theorem makeRoom_spec (h : st.WellFormed) {n : Nat} (hn : bytesForLen str.length = some n) :
    ∃ st', st.makeRoom n = some st' ∧ st'.lastBlockOffset = st.start str ∧ 0 < st'.stringBlocks.length ∧
      (st'.stringBlocks.length = 1 → metadataSize ≤ st'.lastBlockOffset) ∧ st.next ≤ st'.last ∧
      st.stringBlocks.length ≤ st'.stringBlocks.length ∧ ∀ p < st.next, st'.byteAt p = st.byteAt p := by
  have hnonempty := h.nonempty
  rw [makeRoom, start, hn, Option.getD_some]
  by_cases hfull : stringBlockSize ≤ st.lastBlockOffset + n
  · obtain ⟨st₁, happend, hoffset, hlength, hframe⟩ := appendNewBlock_spec hnonempty
    have hnext : st.next ≤ st.stringBlocks.length * stringBlockSize := by
      rw [next, last]
      split_ifs with hlt
      · have hmul : (st.stringBlocks.length - 1 + 1) * stringBlockSize =
            (st.stringBlocks.length - 1) * stringBlockSize + stringBlockSize := Nat.succ_mul _ _
        rw [Nat.sub_add_cancel hnonempty] at hmul
        omega
      · exact Nat.le_refl _
    rw [if_pos hfull, if_pos hfull]
    refine ⟨st₁, happend, hoffset, by omega, fun hone => by omega, ?_, by omega, fun p hp =>
      hframe p (by omega)⟩
    rw [last, hlength, hoffset, Nat.add_sub_cancel, Nat.add_zero]
    exact hnext
  · rw [if_neg hfull, if_neg hfull]
    refine ⟨st, rfl, rfl, hnonempty, h.metadata, ?_, Nat.le_refl _, fun p _ => rfl⟩
    rw [next, if_pos (by omega)]

theorem metadataSize_le_last (hblocks : 0 < st.stringBlocks.length)
    (hmeta : st.stringBlocks.length = 1 → metadataSize ≤ st.lastBlockOffset) :
    metadataSize ≤ st.last := by
  have hB := stringBlockSize_eq
  have hsize : metadataSize = 8 := rfl
  rw [last]
  by_cases hone : st.stringBlocks.length = 1
  · have hfirst := hmeta hone
    omega
  · have hmul : 1 * stringBlockSize ≤ (st.stringBlocks.length - 1) * stringBlockSize :=
      Nat.mul_le_mul_right _ (by omega)
    omega

/-- `create_new` of a string that fits. -/
theorem createNew_spec (h : st.WellFormed) (hfits : (Call.createNew str).Fits st) :
    ∃ id st', st.createNew str = some (id, st') ∧ st'.WellFormed ∧ st'.Stored id str ∧ st.next ≤ id ∧
      st'.next = id + (record str).length ∧ st.stringBlocks.length ≤ st'.stringBlocks.length ∧
      ∀ p, metadataSize ≤ p → p < st.next → st'.byteAt p = st.byteAt p := by
  obtain ⟨hne, hroom⟩ := hfits
  rw [length_record] at hroom
  have hB := stringBlockSize_eq
  have hpos : str.length ≠ 0 := mt List.length_eq_zero_iff.mp hne
  have hencode := length_encodeLen_pos hpos
  obtain ⟨n, hn⟩ := bytesForLen_of_lt hpos (by omega)
  obtain ⟨st₁, henter, hstart, hblocks₁, hmeta₁, hnext₁, hlength₁, hframe₁⟩ := makeRoom_spec h hn
  -- the length and the string
  have hfits₁ : st₁.lastBlockOffset + (encodeLen str.length).length ≤ stringBlockSize := by omega
  obtain ⟨st₂, hwrite₂, hoffset₂, hlength₂, hframe₂, hbytes₂⟩ := writeLast_spec hblocks₁ hfits₁
  have hfits₂ : st₂.lastBlockOffset + str.length ≤ stringBlockSize := by omega
  obtain ⟨st₃, hwrite₃, hoffset₃, hlength₃, hframe₃, hbytes₃⟩ :=
    writeLast_spec (hlength₂ ▸ hblocks₁) hfits₂
  have hcopy := copyString_eq hne hfits₂ (str.length + 1)
  have hlast₂ : st₂.last = st₁.last + (encodeLen str.length).length := by
    rw [last, last, hlength₂, hoffset₂, Nat.add_assoc]
  have hblocks₃ : 0 < st₃.stringBlocks.length := by omega
  obtain ⟨hsaved, hframe₄⟩ := updateLastBlockOffset_spec hblocks₃ (by omega)
  have hlength₄ : st₃.updateLastBlockOffset.stringBlocks.length = st₁.stringBlocks.length := by
    rw [updateLastBlockOffset, length_write, hlength₃, hlength₂]
  have hmeta := metadataSize_le_last hblocks₁ hmeta₁
  refine ⟨st₁.last, st₃.updateLastBlockOffset, ?_, ⟨by omega, hsaved, fun hone => ?_⟩, ⟨hne, ?_, ?_, ?_⟩,
    hnext₁, ?_, by omega, fun p hp hlt => ?_⟩
  · simp only [createNew, hn, Option.bind_eq_bind, Option.bind_some, henter, hwrite₂, hcopy, hwrite₃]
    rfl
  · have hmeta₁ := hmeta₁ (hlength₄ ▸ hone)
    show metadataSize ≤ st₃.lastBlockOffset
    omega
  · rw [last, block_mod (by omega), length_record]
    omega
  · rw [last, block_mod (by omega), length_record]
    omega
  · intro i hi
    rw [length_record] at hi
    rw [hframe₄ _ (by omega)]
    by_cases hlen : i < (encodeLen str.length).length
    · rw [hframe₃ _ (by omega), hbytes₂ i hlen]
      simp only [record, List.getElem_append_left hlen]
    · have hbyte := hbytes₃ (i - (encodeLen str.length).length) (by omega)
      rw [hlast₂, Nat.add_assoc, Nat.add_sub_cancel' (not_lt.mp hlen)] at hbyte
      rw [hbyte]
      simp only [record, List.getElem_append_right (not_lt.mp hlen)]
  · have hoffset : st₃.updateLastBlockOffset.lastBlockOffset = st₃.lastBlockOffset := rfl
    rw [next, last, hlength₄, hoffset, if_pos (by omega), last, length_record]
    omega
  · rw [hframe₄ p hp, hframe₃ p (by omega), hframe₂ p (by omega), hframe₁ p hlt]

theorem reopen_eq (h : st.WellFormed) (hshared : Call.reopen.Fits st) : st.reopen = some st := by
  have hdisk : ∀ m ∈ st.stringBlocks, Mapping.shared m.disk = m := by
    intro m hm
    have hm := hshared m hm
    cases m with
    | shared bytes => rfl
    | priv bytes disk => exact absurd hm id
  have hmap : (st.stringBlocks.map Mapping.disk).map Mapping.shared = st.stringBlocks := by
    rw [List.map_map]
    exact (List.map_congr_left hdisk).trans (List.map_id _)
  obtain ⟨first, hfirst⟩ : ∃ first, st.stringBlocks[0]? = some first :=
    ⟨_, List.getElem?_eq_getElem h.nonempty⟩
  have hbytes : first.disk = first.bytes := by
    conv_rhs => rw [← hdisk first (List.mem_of_getElem? hfirst)]
    rfl
  rw [reopen, new, hmap, List.getElem?_map, hfirst]
  simp only [Option.map_some, hbytes, h.saved first hfirst]

theorem Stored.congr {id : Nat} (h : st.Stored id str)
    (hblocks : st.stringBlocks.length ≤ st'.stringBlocks.length)
    (hframe : ∀ p, id ≤ p → p < id + (record str).length → st'.byteAt p = st.byteAt p) :
    st'.Stored id str where
  nonempty := h.nonempty
  fits := h.fits
  more hend := (h.more hend).trans_le hblocks
  bytes i hi := by rw [hframe _ (by omega) (by omega), h.bytes i hi]

theorem exists_block_of_byteAt {id : Nat} {bytes : Bytes} (hpos : 0 < bytes.length)
    (hfits : id % stringBlockSize + bytes.length ≤ stringBlockSize)
    (hbytes : ∀ i (hi : i < bytes.length), st.byteAt (id + i) = some bytes[i]) :
    ∃ block, st.stringBlocks[id / stringBlockSize]? = some block ∧
      bytesAt block.bytes (id % stringBlockSize) bytes.length = bytes := by
  have hid := Nat.div_add_mod' id stringBlockSize
  have hbyte : ∀ i, i < bytes.length → st.byteAt (id + i) =
      st.stringBlocks[id / stringBlockSize]?.map fun block => block.bytes (id % stringBlockSize + i) := by
    intro i hi
    conv_lhs => rw [← hid, Nat.add_assoc]
    rw [byteAt, block_div (by omega), block_mod (by omega)]
  cases hblock : st.stringBlocks[id / stringBlockSize]? with
  | none =>
    have hfirst := hbytes 0 hpos
    rw [hbyte 0 hpos, hblock] at hfirst
    cases hfirst
  | some block =>
    refine ⟨block, rfl, List.ext_getElem (length_bytesAt _ _ _) fun i _ hi => ?_⟩
    have hread := hbytes i hi
    rw [hbyte i hi, hblock, Option.map_some, Option.some.injEq] at hread
    rw [getElem_bytesAt, hread]

theorem Stored.exists_block {id : Nat} (h : st.Stored id str) :
    ∃ block, st.stringBlocks[id / stringBlockSize]? = some block ∧
      bytesAt block.bytes (id % stringBlockSize) (record str).length = record str := by
  have hpos : 0 < (record str).length := by
    rw [length_record]
    have := List.length_pos_of_ne_nil h.nonempty
    omega
  exact exists_block_of_byteAt hpos h.fits h.bytes

theorem Stored.read {id : Nat} (h : st.Stored id str) :
    ∃ block, st.stringBlocks[id / stringBlockSize]? = some block ∧
      getStringLen block.bytes (id % stringBlockSize) =
        some (str.length, (encodeLen str.length).length) ∧
      bytesAt block.bytes (id % stringBlockSize + (encodeLen str.length).length) str.length = str := by
  obtain ⟨block, hblock, hbytes⟩ := h.exists_block
  have hB := stringBlockSize_eq
  have hfits := h.fits
  rw [length_record] at hbytes hfits
  rw [bytesAt_add, record] at hbytes
  obtain ⟨hlen, hstr⟩ := List.append_inj hbytes (length_bytesAt _ _ _)
  have hpos : str.length ≠ 0 := mt List.length_eq_zero_iff.mp h.nonempty
  exact ⟨block, hblock, getStringLen_encodeLen hpos hlen (by omega) (by omega), hstr⟩

theorem Stored.start_div {id : Nat} (h : st.Stored id str) :
    (id + (encodeLen str.length).length) / stringBlockSize = id / stringBlockSize ∧
      (id + (encodeLen str.length).length) % stringBlockSize =
        id % stringBlockSize + (encodeLen str.length).length := by
  have hfits := h.fits
  have hpos := List.length_pos_of_ne_nil h.nonempty
  rw [length_record] at hfits
  have hid := Nat.div_add_mod' id stringBlockSize
  constructor
  · conv_lhs => rw [← hid, Nat.add_assoc]
    exact block_div (by omega)
  · conv_lhs => rw [← hid, Nat.add_assoc]
    exact block_mod (by omega)

theorem Stored.strEq {id : Nat} (h : st.Stored id str) (other : Bytes) :
    st.strEq other id = some (decide (str.length = other.length ∧ compare str other = 0)) := by
  obtain ⟨block, hblock, hlen, hstr⟩ := h.read
  obtain ⟨hdiv, hmod⟩ := h.start_div
  have hfits := h.fits
  rw [length_record] at hfits
  rw [State.strEq]
  simp only [Option.bind_eq_bind, hblock, Option.bind_some, hlen]
  by_cases heq : str.length = other.length
  · have hcompare := compareExternal_eq
      ⟨block.bytes, str.length, id % stringBlockSize + (encodeLen str.length).length⟩ other (by simp only; omega)
    simp only at hcompare
    rw [if_neg (not_not.mpr heq), hdiv, hblock, Option.bind_some, hmod, hcompare, Option.bind_some, hstr]
    simp [heq]
  · rw [if_pos heq]
    simp [heq]

theorem Stored.print {id : Nat} (h : st.Stored id str) : st.print id = some str := by
  obtain ⟨block, hblock, hlen, hstr⟩ := h.read
  obtain ⟨_, hmod⟩ := h.start_div
  have hfits := h.fits
  have hmore := h.more
  rw [length_record] at hfits hmore
  obtain ⟨hlt, hget⟩ := List.getElem?_eq_some_iff.mp hblock
  have hread : block.bytes.read (id % stringBlockSize + (encodeLen str.length).length) str.length =
      some (bytesAt block.bytes (id % stringBlockSize + (encodeLen str.length).length) str.length) :=
    read_eq (by omega)
  rw [State.print]
  simp only [Option.bind_eq_bind, hblock, Option.bind_some, hlen, hmod]
  rw [List.drop_eq_getElem_cons hlt, hget, printLoop]
  by_cases hpage : str.length <
      stringBlockSize - (id % stringBlockSize + (encodeLen str.length).length)
  · simp only [if_pos hpage, hread, hstr]
  · -- the string ends the block, and nothing is left for the next one
    have hrest : stringBlockSize - (id % stringBlockSize + (encodeLen str.length).length) =
        str.length := by omega
    have hnext := hmore (by omega)
    have hzero : (0 : Nat) < stringBlockSize := by decide
    simp only [hrest, lt_irrefl, if_false, hread, hstr, Option.bind_eq_bind, Option.bind_some, Nat.sub_self]
    rw [List.drop_eq_getElem_cons hnext, printLoop, Nat.sub_zero, if_pos hzero,
      read_eq (by omega : 0 + 0 ≤ stringBlockSize)]
    simp [bytesAt]

theorem Stored.denotes {id : Nat} (h : st.Stored id str) : Denotes st id str where
  equal := by
    rw [h.strEq, decide_eq_true ⟨rfl, (compare_eq_zero_iff str str).mpr rfl⟩]
  different other hzero hne := by
    rw [h.strEq, decide_eq_false]
    intro ⟨hlength, hcompare⟩
    exact hne ((compare_eq_zero_iff_eq hzero hlength).mp hcompare).symm
  print := h.print

end

end State

theorem length_encodeLen_le (n : Nat) : (encodeLen n).length ≤ 1 + n / 128 := by
  induction n using Nat.strongRecOn with
  | ind n ih =>
    by_cases hzero : n = 0
    · rw [hzero, encodeLen_zero]
      exact Nat.zero_le _
    · by_cases hle : n ≤ 127
      · rw [encodeLen_of_le hzero hle, List.length_singleton]
        omega
      · have hrest := ih (n / 128) (by omega)
        rw [encodeLen_of_gt (by omega), List.length_cons]
        omega

namespace Import

structure WellFormed (st : ExternalStrings) : Prop where
  metadata : metadataSize ≤ st.stop
  stop : st.stop < 2 ^ 64
  first : ∀ r ∈ st.set, metadataSize ≤ r.1
  last : ∀ r ∈ st.set, r.1 + (record r.2).length ≤ st.stop
  bytes : ∀ r ∈ st.set, bytesAt st.bytes r.1 (record r.2).length = record r.2

theorem WellFormed.getOrCreate {st st' : ExternalStrings} {str : Bytes} {id : Nat} (h : WellFormed st)
    (hstep : getOrCreateExternalStringId st str = some (id, st')) : WellFormed st' := by
  have hkept : ∀ r ∈ st.set, bytesAt (memcpy st.bytes st.stop (encodeLen str.length ++ str)) r.1
      (record r.2).length = record r.2 := by
    intro r hr
    have hlast := h.last r hr
    have hsame : bytesAt (memcpy st.bytes st.stop (encodeLen str.length ++ str)) r.1
        (record r.2).length = bytesAt st.bytes r.1 (record r.2).length := by
      apply List.map_congr_left
      intro i hi
      rw [List.mem_range] at hi
      exact memcpy_of_lt _ (by omega)
    rw [hsame, h.bytes r hr]
  have hmeta := h.metadata
  rw [getOrCreateExternalStringId] at hstep
  by_cases hmemory : 2 ^ 63 ≤ st.stop + str.length + minPageRemainingBytes + maxLenBytes + 1
  · rw [if_pos hmemory] at hstep
    cases hstep
  · rw [if_neg hmemory] at hstep
    cases hfound : findString st.hash st.set str with
    | some found =>
      simp only [hfound, Option.some.injEq, Prod.mk.injEq] at hstep
      rw [← hstep.2]
      exact ⟨h.metadata, h.stop, h.first, h.last, hkept⟩
    | none =>
      simp only [hfound, Option.some.injEq, Prod.mk.injEq] at hstep
      have hlength := length_encodeLen_le str.length
      have hmin : minPageRemainingBytes = 9 := rfl
      have hrecord := State.length_record str
      have hstop : st.stop + (record str).length ≤ st'.stop ∧ st'.stop < 2 ^ 64 := by
        rw [← hstep.2]
        simp only
        split_ifs with hskip <;> omega
      have hset : st'.set = (st.stop, str) :: st.set := by rw [← hstep.2]
      have hbytes : st'.bytes = memcpy st.bytes st.stop (encodeLen str.length ++ str) := by rw [← hstep.2]
      refine ⟨by omega, hstop.2, fun r hr => ?_, fun r hr => ?_, fun r hr => ?_⟩
      · rw [hset, List.mem_cons] at hr
        rcases hr with rfl | hr
        · exact hmeta
        · exact h.first r hr
      · rw [hset, List.mem_cons] at hr
        rcases hr with rfl | hr
        · exact hstop.1
        · exact (h.last r hr).trans (by omega)
      · rw [hset, List.mem_cons] at hr
        rw [hbytes]
        rcases hr with rfl | hr
        · exact bytesAt_memcpy _ _ _
        · exact hkept r hr

theorem externalStrings_induct {P : ExternalStrings → Prop}
    (hstep : ∀ st str id st', P st → getOrCreateExternalStringId st str = some (id, st') → P st')
    {hash : Bytes → UInt64} {buffer : Nat → UInt8}
    (hstart : P { hash, bytes := buffer, set := [], stop := metadataSize })
    {strs : List Bytes} {file : ExternalStrings}
    (h : externalStrings hash buffer strs = some file) : P file := by
  have hfold : ∀ st : ExternalStrings, P st →
      strs.foldlM (fun st str => (getOrCreateExternalStringId st str).map Prod.snd) st = some file →
        P file := by
    clear h
    induction strs with
    | nil =>
      intro st hst h
      exact Option.some.inj h ▸ hst
    | cons str strs ih =>
      intro st hst h
      rw [List.foldlM_cons] at h
      obtain ⟨st', hcall, hrest⟩ := Option.bind_eq_some_iff.mp h
      obtain ⟨r, hr, rfl⟩ := Option.map_eq_some_iff.mp hcall
      exact ih r.2 (hstep st str r.1 r.2 hst hr) hrest
  exact hfold _ hstart h

theorem wellFormed_externalStrings {hash : Bytes → UInt64} {buffer : Nat → UInt8}
    {strs : List Bytes} {file : ExternalStrings}
    (h : externalStrings hash buffer strs = some file) : WellFormed file := by
  refine externalStrings_induct (fun _ _ _ _ hst hcall => hst.getOrCreate hcall)
    ⟨Nat.le_refl _, ?_, ?_, ?_, ?_⟩ h
  · show 8 < 2 ^ 64
    decide
  · simp
  · simp
  · simp

theorem fileByte_of_lt {file : ExternalStrings} {p : Nat} (hp : metadataSize ≤ p) (hlt : p < file.stop) :
    fileByte file p = file.bytes p := by
  have hlength : (writeUint64 file.stop).length = 8 := rfl
  have hmeta : metadataSize = 8 := rfl
  rw [fileByte]
  simp only [if_pos hlt]
  exact memcpy_of_le (by omega)

theorem length_stringsFile (file : ExternalStrings) :
    (stringsFile file).length = file.stop / stringBlockSize + 1 := by
  have hpos : 0 < stringBlockSize := by decide
  have hlt := Nat.mod_lt file.stop hpos
  have hstop := Nat.div_add_mod' file.stop stringBlockSize
  have hend : file.stop + (stringBlockSize - file.stop % stringBlockSize) =
      (file.stop / stringBlockSize + 1) * stringBlockSize := by
    rw [Nat.succ_mul]
    omega
  rw [stringsFile, List.length_map, List.length_range, hend, Nat.mul_div_cancel _ hpos]

theorem getElem?_stringsFile {file : ExternalStrings} {block : Nat}
    (h : block ≤ file.stop / stringBlockSize) :
    (stringsFile file)[block]? = some fun i => fileByte file (block * stringBlockSize + i) := by
  have hlength := length_stringsFile file
  rw [stringsFile, List.length_map, List.length_range] at hlength
  rw [stringsFile, List.getElem?_map, hlength, List.getElem?_range (by omega), Option.map_some]

theorem new_stringsFile {file : ExternalStrings} (h : WellFormed file) :
    ∃ st, State.new (stringsFile file) = some st ∧ st.WellFormed ∧ file.stop ≤ st.next ∧
      st.stringBlocks.length = file.stop / stringBlockSize + 1 ∧
      ∀ p, p / stringBlockSize ≤ file.stop / stringBlockSize → st.byteAt p = some (fileByte file p) := by
  have hB := stringBlockSize_eq
  have hmeta : metadataSize = 8 := rfl
  have hstop := h.metadata
  have hfirst := getElem?_stringsFile (Nat.zero_le (file.stop / stringBlockSize))
  have hread : ofBytes ((List.range 8).map fun i => fileByte file (0 * stringBlockSize + i)) =
      file.stop := by
    have hbytes := bytesAt_memcpy file.bytes 0 (writeUint64 file.stop)
    have hlength : (writeUint64 file.stop).length = 8 := rfl
    rw [hlength] at hbytes
    conv_rhs => rw [← ofBytes_writeUint64 h.stop, ← hbytes]
    congr 1
    apply List.map_congr_left
    intro i hi
    rw [List.mem_range] at hi
    rw [fileByte, Nat.zero_mul]
    simp only [if_pos (by omega : 0 + i < file.stop)]
  have hlength : ((stringsFile file).map Mapping.shared).length = file.stop / stringBlockSize + 1 := by
    rw [List.length_map, length_stringsFile]
  have hget : ∀ block ≤ file.stop / stringBlockSize, ((stringsFile file).map Mapping.shared)[block]? =
      some (.shared fun i => fileByte file (block * stringBlockSize + i)) := by
    intro block hblock
    rw [List.getElem?_map, getElem?_stringsFile hblock, Option.map_some]
  refine ⟨⟨(stringsFile file).map .shared, file.stop⟩, ?_, ⟨?_, ?_, fun _ => hstop⟩, ?_, hlength,
    fun p hp => ?_⟩
  · rw [State.new, hfirst, Option.map_some, hread]
  · exact hlength ▸ Nat.succ_pos _
  · intro first hblock
    simp only at hblock
    rw [hget 0 (Nat.zero_le _), Option.some.injEq] at hblock
    rw [← hblock]
    exact hread
  · rw [State.next, State.last]
    simp only [hlength, Nat.add_sub_cancel]
    split_ifs with hlt
    · omega
    · have hlt := Nat.mod_lt file.stop (by decide : 0 < stringBlockSize)
      have hdiv := Nat.div_add_mod' file.stop stringBlockSize
      rw [Nat.succ_mul]
      omega
  · rw [State.byteAt]
    simp only [hget _ hp, Option.map_some, Mapping.bytes, Nat.div_add_mod']

theorem WellFormed.stored {file : ExternalStrings} (h : WellFormed file) {st : State}
    (hlength : st.stringBlocks.length = file.stop / stringBlockSize + 1)
    (hbytes : ∀ p, p / stringBlockSize ≤ file.stop / stringBlockSize → st.byteAt p = some (fileByte file p))
    {r : Nat × Bytes} (hr : r ∈ file.set) (hne : r.2 ≠ [])
    (hfits : r.1 % stringBlockSize + (record r.2).length ≤ stringBlockSize) : st.Stored r.1 r.2 := by
  have hB := stringBlockSize_eq
  have hfirst := h.first r hr
  have hlast := h.last r hr
  refine ⟨hne, hfits, fun hend => ?_, fun i hi => ?_⟩
  · have hid := Nat.div_add_mod' r.1 stringBlockSize
    have hle : r.1 / stringBlockSize + 1 ≤ file.stop / stringBlockSize := by
      rw [Nat.le_div_iff_mul_le (by decide), Nat.succ_mul]
      omega
    omega
  · rw [hbytes _ (Nat.div_le_div_right (by omega)), fileByte_of_lt (by omega) (by omega)]
    have hbyte := h.bytes r hr
    have hlen : i < (bytesAt file.bytes r.1 (record r.2).length).length := by rwa [length_bytesAt]
    rw [← getElem_bytesAt hlen]
    simp only [hbyte]

end Import

structure Holds (file : Import.ExternalStrings) (returned : List (Nat × Bytes)) (st : State) : Prop where
  wellFormed : st.WellFormed
  stored : ∀ r ∈ returned, st.Stored r.1 r.2
  imported : ∀ r ∈ file.set, r.2 ≠ [] → r.1 % stringBlockSize + (record r.2).length ≤ stringBlockSize →
    st.Stored r.1 r.2
  apart : returned.Pairwise fun older newer => older.1 + (record older.2).length ≤ newer.1
  after : ∀ r ∈ returned, file.stop ≤ r.1
  below : ∀ r ∈ returned, r.1 + (record r.2).length ≤ st.next
  stop : file.stop ≤ st.next
  bytes : ∀ p, metadataSize ≤ p → p < file.stop → st.byteAt p = some (Import.fileByte file p)

namespace Holds

variable {file : Import.ExternalStrings} {returned : List (Nat × Bytes)} {st : State}

theorem kept (h : Holds file returned st) : Kept file returned st where
  denotes r hr := (h.stored r hr).denotes
  imported r hr hne hfits := (h.imported r hr hne hfits).denotes
  apart := h.apart
  after := h.after
  bytes := h.bytes

theorem new (hfile : Import.WellFormed file) :
    ∃ st, State.new (Import.stringsFile file) = some st ∧ Holds file [] st := by
  obtain ⟨st, hst, hwf, hstop, hlength, hbytes⟩ := Import.new_stringsFile hfile
  refine ⟨st, hst, hwf, by simp, fun r hr hne hfits => hfile.stored hlength hbytes hr hne hfits,
    List.Pairwise.nil, by simp, by simp, hstop, fun p _ hlt => hbytes p (Nat.div_le_div_right hlt.le)⟩

theorem call (hfile : Import.WellFormed file) (h : Holds file returned st) {c : Call} (hfits : c.Fits st) :
    ∃ r, StringManager.call (returned, st) c = some r ∧ Holds file r.1 r.2 := by
  cases c with
  | reopen =>
    refine ⟨(returned, st), ?_, h⟩
    rw [StringManager.call, State.reopen_eq h.wellFormed hfits, Option.map_some]
  | createNew str =>
    obtain ⟨id, st', hcreate, hwf, hstored, hid, hnext, hblocks, hframe⟩ :=
      State.createNew_spec h.wellFormed hfits
    have hmeta := hfile.metadata
    have hstop := h.stop
    refine ⟨(returned ++ [(id, str)], st'), ?_, hwf, fun r hr => ?_, fun r hr hne hin => ?_, ?_,
      fun r hr => ?_, fun r hr => ?_, ?_, fun p hp hlt => ?_⟩
    · rw [StringManager.call, hcreate, Option.map_some]
    · rcases List.mem_append.mp hr with hr | hr
      · have hbelow := h.below r hr
        have hafter := h.after r hr
        exact (h.stored r hr).congr hblocks fun p hle hlt => hframe p (by omega) (by omega)
      · rw [List.mem_singleton.mp hr]
        exact hstored
    · have hfirst := hfile.first r hr
      have hlast := hfile.last r hr
      exact (h.imported r hr hne hin).congr hblocks fun p hle hlt => hframe p (by omega) (by omega)
    · rw [List.pairwise_append]
      refine ⟨h.apart, List.pairwise_singleton _ _, fun older holder newer hnewer => ?_⟩
      rw [List.mem_singleton.mp hnewer]
      exact (h.below older holder).trans hid
    · rcases List.mem_append.mp hr with hr | hr
      · exact h.after r hr
      · rw [List.mem_singleton.mp hr]
        exact hstop.trans hid
    · rcases List.mem_append.mp hr with hr | hr
      · have hbelow := h.below r hr
        simp only at hnext ⊢
        omega
      · rw [List.mem_singleton.mp hr]
        exact hnext.ge
    · simp only at hnext ⊢
      omega
    · rw [hframe p hp (by omega)]
      exact h.bytes p hp hlt

end Holds

theorem run_holds {file : Import.ExternalStrings} (hfile : Import.WellFormed file) {st : State}
    (hst : Holds file [] st) (calls : List Call) (hmeets : Meets st calls) :
    ∃ r, run st calls = some r ∧ Holds file r.1 r.2 := by
  induction calls using List.reverseRecOn with
  | nil => exact ⟨([], st), rfl, hst⟩
  | append_singleton calls c ih =>
    have hbefore : Meets st calls := by
      intro before c' after heq
      exact hmeets before c' (after ++ [c]) (by rw [heq, List.append_assoc, List.cons_append])
    obtain ⟨r, hrun, hr⟩ := ih hbefore
    have hfits : c.Fits r.2 := hmeets calls c [] rfl r hrun
    obtain ⟨r', hcall, hr'⟩ := hr.call hfile hfits
    refine ⟨r', ?_, hr'⟩
    rw [run, List.foldlM_append, ← run, hrun, Option.bind_eq_bind, Option.bind_some, List.foldlM_cons, hcall]
    rfl

/-- For every import, the ids keep their strings in every run whose calls do what they should in the
states before them. -/
theorem kept_of_meets {hash : Bytes → UInt64} {buffer : Nat → UInt8} {strs : List Bytes} {file : Import.ExternalStrings}
    (hfile : Import.externalStrings hash buffer strs = some file) :
    ∃ st, State.new (Import.stringsFile file) = some st ∧
      ∀ calls, Meets st calls → ∃ r, run st calls = some r ∧ Kept file r.1 r.2 := by
  have hwf := Import.wellFormed_externalStrings hfile
  obtain ⟨st, hst, hholds⟩ := Holds.new hwf
  refine ⟨st, hst, fun calls hmeets => ?_⟩
  obtain ⟨r, hrun, hr⟩ := run_holds hwf hholds calls hmeets
  exact ⟨r, hrun, hr.kept⟩

/-- A string that is added after a new start. -/
theorem kept_hello :
    ∃ file st r, Import.externalStrings (fun _ => 0) (fun _ => 0) [] = some file ∧
      State.new (Import.stringsFile file) = some st ∧
      run st [.reopen, .createNew [104, 101, 108, 108, 111]] = some r ∧ Kept file r.1 r.2 := by
  have hfile : Import.externalStrings (fun _ => 0) (fun _ => 0) [] =
      some ⟨fun _ => 0, fun _ => 0, [], metadataSize⟩ := rfl
  obtain ⟨st, hst, hcalls⟩ := kept_of_meets hfile
  have hnew := hst
  rw [State.new, Import.getElem?_stringsFile (Nat.zero_le _), Option.map_some, Option.some.injEq] at hnew
  have hoffset : st.lastBlockOffset = 8 := by
    rw [← hnew]
    decide
  have hshared : Call.reopen.Fits st := by
    intro block hblock
    rw [← hnew, List.mem_map] at hblock
    obtain ⟨bytes, _, rfl⟩ := hblock
    trivial
  have hstart : st.start [104, 101, 108, 108, 111] = 8 := by
    rw [State.start, hoffset]
    decide
  have hlength : (record [104, 101, 108, 108, 111]).length = 6 := by
    rw [State.length_record, List.length_cons, encodeLen_of_le (by simp) (by simp)]
    rfl
  have hwf := Import.new_stringsFile (Import.wellFormed_externalStrings hfile)
  have hreopen : st.reopen = some st := by
    obtain ⟨st', hst', hwf', _⟩ := hwf
    rw [hst, Option.some.injEq] at hst'
    exact State.reopen_eq (hst' ▸ hwf') hshared
  obtain ⟨r, hrun, hr⟩ := hcalls [.reopen, .createNew [104, 101, 108, 108, 111]] <| by
    intro before c after heq r hrun
    match before with
    | [] =>
      rw [List.nil_append, List.cons.injEq] at heq
      rw [← heq.1, ← Option.some.inj hrun]
      exact hshared
    | [c'] =>
      rw [List.cons_append, List.nil_append, List.cons.injEq, List.cons.injEq] at heq
      have hone : run st [.reopen] = some ([], st) := by
        rw [run, List.foldlM_cons, call, hreopen]
        rfl
      rw [← heq.1, hone, Option.some.injEq] at hrun
      rw [← heq.2.1, ← hrun]
      refine ⟨by simp, ?_⟩
      rw [hstart, hlength]
      decide
    | _ :: _ :: rest =>
      have hlong := congrArg List.length heq
      simp at hlong
  exact ⟨_, st, r, hfile, hst, hrun, hr⟩

theorem State.length_le_of_strEq {st : State} {str : Bytes} {id : Nat} (hzero : 0 ∉ str)
    (h : st.strEq str id = some true) : str.length ≤ stringBlockSize := by
  have hpos : 0 < stringBlockSize := by decide
  simp only [State.strEq, Option.bind_eq_bind, Option.bind_eq_some_iff] at h
  obtain ⟨block, _, ⟨len, n⟩, _, h⟩ := h
  by_cases hlength : len = str.length
  · rw [if_neg (not_not.mpr hlength)] at h
    obtain ⟨block', _, hcomparing⟩ := Option.bind_eq_some_iff.mp h
    obtain ⟨comparison, hcompare, hdecide⟩ := Option.bind_eq_some_iff.mp hcomparing
    have hcomparison : comparison = 0 := by simpa using hdecide
    rw [hcomparison] at hcompare
    have hle := le_of_compareExternal ⟨block'.bytes, len, (id + n) % stringBlockSize⟩ hzero hlength
      (Nat.mod_lt _ hpos).le hcompare
    simp only at hle
    omega
  · simp [hlength] at h

theorem not_kept_of_long {file : Import.ExternalStrings} {st : State} {str : Bytes} (hzero : 0 ∉ str)
    (hlong : stringBlockSize < str.length) :
    ¬ ∃ r, run st [.createNew str] = some r ∧ Kept file r.1 r.2 := by
  intro ⟨r, hrun, hr⟩
  rw [run, List.foldlM_cons, Option.bind_eq_bind] at hrun
  obtain ⟨r', hcall, hpure⟩ := Option.bind_eq_some_iff.mp hrun
  obtain ⟨⟨id, st'⟩, _, hr'⟩ := Option.map_eq_some_iff.mp hcall
  have hreturned : r.1 = [(id, str)] := by
    rw [← Option.some.inj hpure, ← hr']
    rfl
  have hequal := (hr.denotes (id, str) (hreturned ▸ List.mem_singleton_self _)).equal
  exact absurd (State.length_le_of_strEq hzero hequal) (not_le.mpr hlong)

theorem not_kept_long :
    ¬ ∀ hash buffer strs file, Import.externalStrings hash buffer strs = some file →
      ∃ st, State.new (Import.stringsFile file) = some st ∧
        ∀ calls, ∃ r, run st calls = some r ∧ Kept file r.1 r.2 := by
  intro hall
  obtain ⟨st, _, hcalls⟩ := hall (fun _ => 0) (fun _ => 0) [] _ rfl
  obtain ⟨n, hn⟩ : ∃ n, n = stringBlockSize + 1 := ⟨_, rfl⟩
  have hzero : (0 : UInt8) ∉ List.replicate n (97 : UInt8) := by
    rw [List.mem_replicate]
    intro ⟨_, heq⟩
    exact absurd heq (by decide)
  have hlong : stringBlockSize < (List.replicate n (97 : UInt8)).length := by
    rw [List.length_replicate]
    omega
  exact not_kept_of_long hzero hlong (hcalls _)

end StringManager
end MillenniumDB
