import MillenniumDB.ImportedStrings

/-!
# Iterators over external strings

`StringExternalIter` gives the characters of an external string one by one, and `print` writes them
block by block.  `print` goes to the next block at the end of a block; the iterator first reads one
character from behind the end.
-/

namespace MillenniumDB
namespace StringManager

def State.getCharIter (st : State) (id : Nat) : Option StringExternalIter := do
  let block ← st.stringBlocks[id / stringBlockSize]?
  let (len, bytesForLen) ← getStringLen block.bytes (id % stringBlockSize)
  let stringStart := id + bytesForLen
  let block ← st.stringBlocks[stringStart / stringBlockSize]?
  some ⟨block.bytes, len, stringStart % stringBlockSize⟩

/-- Calls of `next_char`. -/
def StringExternalIter.take : Nat → StringExternalIter → Option Bytes
  | 0, _ => some []
  | n + 1, it => do
    let (c, it) ← it.nextChar
    let chars ← take n it
    some (c :: chars)

def StringExternalIter.chars (it : StringExternalIter) : Option Bytes := it.take it.bytesLeft

/-- An id of a string of `len` bytes after `n` bytes for its length. -/
structure State.External (st : State) (id len n : Nat) : Prop where
  decoded : ∃ block, st.stringBlocks[id / stringBlockSize]? = some block ∧
    getStringLen block.bytes (id % stringBlockSize) = some (len, n)
  nonempty : 0 < len
  inside : id + n + len ≤ st.stringBlocks.length * stringBlockSize

/-- The iterator gives what `print` writes. -/
def State.IteratesAsPrinted (st : State) (id : Nat) : Prop :=
  ∃ it bytes, st.getCharIter id = some it ∧ it.chars = some bytes ∧ st.print id = some bytes

namespace StringExternalIter

theorem take_eq (it : StringExternalIter) {n : Nat} (hleft : n ≤ it.bytesLeft) :
    it.take n = if n = 0 ∨ it.currentPageOffset + n ≤ stringBlockSize then
      some (bytesAt it.currentBlock it.currentPageOffset n) else none := by
  induction n generalizing it with
  | zero =>
    rw [take, if_pos (Or.inl rfl)]
    rfl
  | succ n ih =>
    have hpos : it.bytesLeft ≠ 0 := by omega
    rw [take, nextChar, if_neg hpos]
    by_cases hin : it.currentPageOffset < stringBlockSize
    · have hrest := ih { it with
        bytesLeft := it.bytesLeft - 1, currentPageOffset := it.currentPageOffset + 1 } (by simp only; omega)
      simp only [if_pos hin, Option.bind_eq_bind, Option.bind_some, hrest]
      by_cases hfits : it.currentPageOffset + (n + 1) ≤ stringBlockSize
      · rw [if_pos (by omega), if_pos (by omega), Option.bind_some, bytesAt_succ]
      · rw [if_neg (by omega), if_neg (by omega), Option.bind_none]
    · simp only [if_neg hin, Option.bind_eq_bind, Option.bind_none]
      rw [if_neg (by omega)]

theorem chars_eq (it : StringExternalIter) (hpos : 0 < it.bytesLeft) :
    it.chars = if it.currentPageOffset + it.bytesLeft ≤ stringBlockSize then
      some (bytesAt it.currentBlock it.currentPageOffset it.bytesLeft) else none := by
  rw [chars, take_eq it (Nat.le_refl _)]
  by_cases hfits : it.currentPageOffset + it.bytesLeft ≤ stringBlockSize
  · rw [if_pos (Or.inr hfits), if_pos hfits]
  · rw [if_neg (by omega), if_neg hfits]

end StringExternalIter

theorem getStringLenLoop_le {block : Block} {offset shift decoded count len n : Nat}
    (h : getStringLenLoop block offset shift decoded count = some (len, n)) :
    count < n ∧ offset + (n - count) ≤ stringBlockSize := by
  induction hroom : stringBlockSize - offset generalizing offset shift decoded count with
  | zero =>
    rw [getStringLenLoop, if_neg (by omega)] at h
    exact absurd h (by simp)
  | succ room ih =>
    rw [getStringLenLoop] at h
    split_ifs at h with hin
    simp only at h
    split_ifs at h with hlast
    · rw [Option.some.injEq, Prod.mk.injEq] at h
      omega
    · have hrest := ih h (by omega)
      omega

namespace State.External

variable {st : State} {id len n : Nat}

theorem le (h : st.External id len n) :
    0 < n ∧ id % stringBlockSize + n ≤ stringBlockSize := by
  obtain ⟨block, _, hlen⟩ := h.decoded
  have hle := getStringLenLoop_le hlen
  omega

theorem start_of_lt (hlt : id % stringBlockSize + n < stringBlockSize) :
    (id + n) / stringBlockSize = id / stringBlockSize ∧
      (id + n) % stringBlockSize = id % stringBlockSize + n := by
  have hid := Nat.div_add_mod' id stringBlockSize
  constructor
  · conv_lhs => rw [← hid, Nat.add_assoc]
    exact State.block_div hlt
  · conv_lhs => rw [← hid, Nat.add_assoc]
    exact State.block_mod hlt

/-- `print` from the block of the id on. -/
theorem print_eq (h : st.External id len n) : ∃ block,
    st.stringBlocks[id / stringBlockSize]? = some block ∧
      getStringLen block.bytes (id % stringBlockSize) = some (len, n) ∧
      st.print id = printLoop (id % stringBlockSize + n) ((id + n) % stringBlockSize) len
        (block :: st.stringBlocks.drop (id / stringBlockSize + 1)) := by
  obtain ⟨block, hblock, hlen⟩ := h.decoded
  obtain ⟨hlt, hget⟩ := List.getElem?_eq_some_iff.mp hblock
  refine ⟨block, hblock, hlen, ?_⟩
  rw [State.print]
  simp only [Option.bind_eq_bind, hblock, Option.bind_some, hlen]
  rw [List.drop_eq_getElem_cons hlt, hget]

/-- After a length that ends its block `print` goes on behind the block. -/
theorem print_of_eq (h : st.External id len n) (heq : id % stringBlockSize + n = stringBlockSize) :
    st.print id = none := by
  have hpos := h.nonempty
  have hmod : (id + n) % stringBlockSize = 0 := by
    have hid := Nat.div_add_mod' id stringBlockSize
    have hend : id + n = (id / stringBlockSize + 1) * stringBlockSize := by
      rw [Nat.succ_mul]
      omega
    rw [hend, Nat.mul_mod_left]
  obtain ⟨block, _, _, hprint⟩ := h.print_eq
  rw [hprint, hmod, heq, printLoop]
  simp only [Nat.sub_zero]
  split_ifs with hlt
  · exact if_neg (by omega)
  · have hread : block.bytes.read stringBlockSize stringBlockSize = none := if_neg (by decide)
    rw [hread]
    rfl

/-- A string that is in the block of its id; when it ends the block, there is a next block or nothing
is written. -/
theorem print_of_fits (h : st.External id len n)
    (hfits : id % stringBlockSize + n + len ≤ stringBlockSize) : ∃ block,
      st.stringBlocks[id / stringBlockSize]? = some block ∧
      getStringLen block.bytes (id % stringBlockSize) = some (len, n) ∧
      st.print id =
        if id % stringBlockSize + n + len < stringBlockSize ∨
          id / stringBlockSize + 1 < st.stringBlocks.length then
            some (bytesAt block.bytes (id % stringBlockSize + n) len) else none := by
  have hpos := h.nonempty
  obtain ⟨_, hmod⟩ := start_of_lt (by omega : id % stringBlockSize + n < stringBlockSize)
  obtain ⟨block, hblock, hlen, hprint⟩ := h.print_eq
  refine ⟨block, hblock, hlen, ?_⟩
  have hread : block.bytes.read (id % stringBlockSize + n) len =
      some (bytesAt block.bytes (id % stringBlockSize + n) len) := read_eq hfits
  rw [hprint, hmod, printLoop]
  by_cases hpage : len < stringBlockSize - (id % stringBlockSize + n)
  · rw [if_pos hpage, if_pos (Or.inl (by omega)), hread]
  · -- the string ends the block, and nothing is left for the next one
    have hrest : stringBlockSize - (id % stringBlockSize + n) = len := by omega
    rw [if_neg hpage, hrest, hread, Nat.sub_self, Option.bind_eq_bind, Option.bind_some]
    by_cases hnext : id / stringBlockSize + 1 < st.stringBlocks.length
    · have hzero : (0 : Nat) < stringBlockSize := by decide
      rw [if_pos (Or.inr hnext), List.drop_eq_getElem_cons hnext, printLoop, Nat.sub_zero,
        if_pos hzero, read_eq (by omega : 0 + 0 ≤ stringBlockSize)]
      simp [bytesAt]
    · rw [if_neg (by omega), List.drop_eq_nil_of_le (by omega), printLoop]
      rfl

theorem getCharIter_eq
    (hlt : id % stringBlockSize + n < stringBlockSize) {block : Mapping}
    (hblock : st.stringBlocks[id / stringBlockSize]? = some block)
    (hlen : getStringLen block.bytes (id % stringBlockSize) = some (len, n)) :
    st.getCharIter id = some ⟨block.bytes, len, id % stringBlockSize + n⟩ := by
  obtain ⟨hdiv, hmod⟩ := start_of_lt hlt
  rw [State.getCharIter]
  simp only [Option.bind_eq_bind, hblock, Option.bind_some, hlen, hdiv, hmod]

theorem le_of_iteratesAsPrinted (h : st.External id len n) (hiterates : st.IteratesAsPrinted id) :
    id % stringBlockSize + n + len ≤ stringBlockSize := by
  have hpos := h.nonempty
  have hle := h.le.2
  obtain ⟨it, bytes, hit, hchars, hprint⟩ := hiterates
  by_cases heq : id % stringBlockSize + n = stringBlockSize
  · rw [h.print_of_eq heq] at hprint
    exact absurd hprint (by simp)
  · obtain ⟨block, hblock, hlen⟩ := h.decoded
    have hiter := getCharIter_eq (by omega) hblock hlen
    rw [hit, Option.some.injEq] at hiter
    rw [hiter, StringExternalIter.chars_eq _ hpos] at hchars
    split_ifs at hchars with hfits
    exact hfits

end State.External

/-- The iterator gives what `print` writes exactly when the string is in the block of its id, with a
block after it when it ends its block. -/
theorem iteratesAsPrinted_iff {st : State} {id len n : Nat} (h : st.External id len n) :
    st.IteratesAsPrinted id ↔ id % stringBlockSize + n + len < stringBlockSize ∨
      id % stringBlockSize + n + len = stringBlockSize ∧
        id / stringBlockSize + 1 < st.stringBlocks.length := by
  have hpos := h.nonempty
  constructor
  · intro hiterates
    have hfits := h.le_of_iteratesAsPrinted hiterates
    obtain ⟨_, _, _, _, hwritten⟩ := hiterates
    obtain ⟨block, _, _, hprint⟩ := h.print_of_fits hfits
    rw [hprint] at hwritten
    split_ifs at hwritten
    omega
  · intro hends
    have hfits : id % stringBlockSize + n + len ≤ stringBlockSize := by omega
    obtain ⟨block, hblock, hlen, hprint⟩ := h.print_of_fits hfits
    have hiter := State.External.getCharIter_eq (by omega) hblock hlen
    have hchars := StringExternalIter.chars_eq ⟨block.bytes, len, id % stringBlockSize + n⟩ hpos
    rw [if_pos hfits] at hchars
    rw [if_pos (by omega)] at hprint
    exact ⟨_, _, hiter, hchars, hprint⟩

/-- Five letters at the beginning of a file. -/
theorem iteratesAsPrinted_letters : State.IteratesAsPrinted
    ⟨[.shared fun i => if i = 8 then 5 else 104], 14⟩ 8 := by
  have h : State.External ⟨[.shared fun i => if i = 8 then 5 else 104], 14⟩ 8 5 1 := by
    refine ⟨⟨_, rfl, ?_⟩, by decide, by decide⟩
    rw [getStringLen, getStringLenLoop]
    rfl
  exact (iteratesAsPrinted_iff h).mpr (Or.inl (by decide))

namespace Import

theorem Interned.external {file : ExternalStrings} (h : Interned file) {st : State}
    (hst : State.new (stringsFile file) = some st) {r : Nat × Bytes} (hr : r ∈ file.set) :
    st.External r.1 r.2.length (encodeLen r.2.length).length := by
  have hB := stringBlockSize_eq
  have hmin : minPageRemainingBytes = 9 := rfl
  obtain ⟨_, hne, hlength⟩ := h.whole r hr
  have haligned := h.aligned r hr
  have hnine := length_encodeLen_le_nine hlength
  have hfirst := h.wellFormed.first r hr
  have hlast := h.wellFormed.last r hr
  have hpos := List.length_pos_of_ne_nil hne
  rw [State.length_record] at hlast
  have hblocks : st.stringBlocks = (stringsFile file).map .shared := by
    rw [State.new, getElem?_stringsFile (Nat.zero_le _), Option.map_some, Option.some.injEq] at hst
    rw [← hst]
  have hdiv : r.1 / stringBlockSize ≤ file.stop / stringBlockSize := Nat.div_le_div_right (by omega)
  have hid := Nat.div_add_mod' r.1 stringBlockSize
  refine ⟨⟨.shared fun i => fileByte file (r.1 / stringBlockSize * stringBlockSize + i), ?_, ?_⟩,
    hpos, ?_⟩
  · rw [hblocks, List.getElem?_map, getElem?_stringsFile hdiv, Option.map_some]
  · have hbytes := h.wellFormed.bytes r hr
    rw [State.length_record, bytesAt_add, record] at hbytes
    have hlen := (List.append_inj hbytes (length_bytesAt _ _ _)).1
    have hblock : bytesAt (fun i => fileByte file (r.1 / stringBlockSize * stringBlockSize + i))
        (r.1 % stringBlockSize) (encodeLen r.2.length).length = encodeLen r.2.length := by
      conv_rhs => rw [← hlen]
      apply List.map_congr_left
      intro i hi
      rw [List.mem_range] at hi
      beta_reduce
      rw [← Nat.add_assoc, hid]
      exact fileByte_of_lt (by omega) (by omega)
    exact getStringLen_encodeLen (by omega) hblock (by omega) (by omega)
  · have hend := Nat.div_add_mod' file.stop stringBlockSize
    have hmod := Nat.mod_lt file.stop (by decide : 0 < stringBlockSize)
    rw [hblocks, List.length_map, length_stringsFile, Nat.succ_mul]
    omega

end Import

/-- The first string of an import that is as long as a block. -/
theorem not_iteratesAsPrinted_block : ¬ ∀ (hash : Bytes → UInt64) (buffer : Nat → UInt8) (strs : List Bytes)
    (ids : List Nat) (file : Import.ExternalStrings) (st : State),
      (∀ str ∈ strs, 0 ∉ str ∧ 8 ≤ str.length) →
      Import.interned hash buffer strs = some (ids, file) →
      State.new (Import.stringsFile file) = some st → ∀ id ∈ ids, st.IteratesAsPrinted id := by
  intro hall
  obtain ⟨n, hn⟩ : ∃ n, n = stringBlockSize := ⟨_, rfl⟩
  have hB := stringBlockSize_eq
  have hmeta : metadataSize = 8 := rfl
  have hzero : (0 : UInt8) ∉ List.replicate n (97 : UInt8) := by
    rw [List.mem_replicate]
    intro ⟨_, heq⟩
    exact absurd heq (by decide)
  have hone : ∀ str ∈ [List.replicate n (97 : UInt8)], 0 ∉ str ∧ 8 ≤ str.length := by
    intro str hstr
    rw [List.mem_singleton.mp hstr, List.length_replicate]
    exact ⟨hzero, by omega⟩
  obtain ⟨file, hinterned, hset⟩ : ∃ file,
      Import.interned (fun _ => 0) (fun _ => 0) [List.replicate n 97] = some ([8], file) ∧
        file.set = [(8, List.replicate n 97)] := by
    have hmemory : ¬ 2 ^ 63 ≤ metadataSize + n + Import.minPageRemainingBytes + Import.maxLenBytes + 1 := by
      have hmin : Import.minPageRemainingBytes = 9 := rfl
      have hmax : Import.maxLenBytes = 5 := rfl
      omega
    simp only [Import.interned, Import.internAll, Import.getOrCreateExternalStringId,
      List.length_replicate, if_neg hmemory, findString, List.find?_nil]
    exact ⟨_, rfl, rfl⟩
  have hfile : Import.Interned file := by
    apply (Import.internAll_spec (fun str hstr => ⟨(hone str hstr).1, fun hnil => ?_⟩)
      (Import.Interned.empty _ _) hinterned).1
    have := (hone str hstr).2
    rw [hnil, List.length_nil] at this
    omega
  obtain ⟨st, hst, _⟩ := Import.new_stringsFile hfile.wellFormed
  have hexternal : st.External 8 n (encodeLen n).length := by
    have hfirst := hfile.external hst (hset ▸ List.mem_singleton_self _)
    rwa [List.length_replicate] at hfirst
  have hmod : 8 % stringBlockSize = 8 := by decide
  have hfits := hexternal.le_of_iteratesAsPrinted
    (hall _ _ _ _ _ _ hone hinterned hst 8 (List.mem_singleton_self _))
  omega

end StringManager
end MillenniumDB
