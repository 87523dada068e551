import MillenniumDB.StringManager
import MillenniumDB.StringsHash

/-!
# The external strings of an import

The import writes every new string after the others, with its length before it, and leaves the last
bytes of a block free when a length may not fit there.  Afterwards the strings file is scanned from
its beginning, and the hash of strings is built from what the scan finds.
-/

namespace MillenniumDB
namespace StringManager.Import

def skipAlignment (offset : Nat) : Nat :=
  let remainingInPage := stringBlockSize - offset % stringBlockSize
  if remainingInPage < minPageRemainingBytes then offset + remainingInPage else offset

def internAll : List Bytes → ExternalStrings → Option (List Nat × ExternalStrings)
  | [], st => some ([], st)
  | str :: strs, st => do
    let (id, st) ← getOrCreateExternalStringId st str
    let (ids, st) ← internAll strs st
    some (id :: ids, st)

def interned (hash : Bytes → UInt64) (buffer : Nat → UInt8) (strs : List Bytes) :
    Option (List Nat × ExternalStrings) :=
  internAll strs { hash, bytes := buffer, set := [], stop := metadataSize }

/-- The loop over the strings file, with the calls of `create_id`. -/
def scanLoop (st : ExternalStrings) : Nat → Nat → Option (List (Nat × Bytes))
  | 0, _ => none
  | fuel + 1, currentOffset =>
    if currentOffset < st.stop then do
      let (len, bytesForLen) ← getStringLen (fun i => st.bytes (currentOffset + i)) 0
      let rest ← scanLoop st fuel (skipAlignment (currentOffset + (bytesForLen + len)))
      some ((currentOffset, bytesAt st.bytes (currentOffset + bytesForLen) len) :: rest)
    else some []

def scan (st : ExternalStrings) : Option (List (Nat × Bytes)) :=
  scanLoop { st with bytes := memcpy st.bytes 0 (writeUint64 st.stop) } (st.stop + 1) metadataSize

/-- The hash of strings, from the calls of `create_id`. -/
def stringsHash (xxh3 : Bytes → Nat) (st : ExternalStrings) : Option StringsHash.BulkImport :=
  (scan st).bind (StringsHash.importStrings xxh3)

def Chain : Nat → List (Nat × Bytes) → Nat → Prop
  | start, [], stop => start = stop
  | start, r :: rest, stop =>
    r.1 = start ∧ Chain (skipAlignment (start + (record r.2).length)) rest stop

structure Interned (st : ExternalStrings) : Prop where
  wellFormed : WellFormed st
  room : st.stop % stringBlockSize + minPageRemainingBytes ≤ stringBlockSize
  chain : Chain metadataSize st.set.reverse st.stop
  whole : ∀ r ∈ st.set, 0 ∉ r.2 ∧ r.2 ≠ [] ∧ r.2.length < 2 ^ 63
  aligned : ∀ r ∈ st.set, r.1 % stringBlockSize + minPageRemainingBytes ≤ stringBlockSize
  nodup : (st.set.map Prod.snd).Nodup

theorem le_skipAlignment (offset : Nat) : offset ≤ skipAlignment offset := by
  rw [skipAlignment]
  split_ifs <;> omega

theorem skipAlignment_room (offset : Nat) :
    skipAlignment offset % stringBlockSize + minPageRemainingBytes ≤ stringBlockSize := by
  have hB := stringBlockSize_eq
  have hmin : minPageRemainingBytes = 9 := rfl
  have hlt := Nat.mod_lt offset (by decide : 0 < stringBlockSize)
  rw [skipAlignment]
  split_ifs with hskip
  · have hoffset := Nat.div_add_mod' offset stringBlockSize
    have hnext : offset + (stringBlockSize - offset % stringBlockSize) =
        (offset / stringBlockSize + 1) * stringBlockSize := by
      rw [Nat.succ_mul]
      omega
    rw [hnext, Nat.mul_mod_left]
    omega
  · omega

theorem Chain.append {start mid : Nat} {l : List (Nat × Bytes)} (h : Chain start l mid) (str : Bytes) :
    Chain start (l ++ [(mid, str)]) (skipAlignment (mid + (record str).length)) := by
  induction l generalizing start with
  | nil => exact ⟨h.symm, congrArg _ (congrArg (· + _) h)⟩
  | cons r l ih => exact ⟨h.1, ih h.2⟩

theorem Chain.increasing {start stop : Nat} {l : List (Nat × Bytes)} (h : Chain start l stop)
    (hne : ∀ r ∈ l, r.2 ≠ []) : (∀ r ∈ l, start ≤ r.1) ∧ start + l.length ≤ stop ∧
      (l.map Prod.fst).Pairwise (· < ·) := by
  induction l generalizing start with
  | nil =>
    rw [Chain] at h
    exact ⟨by simp, h.le, List.Pairwise.nil⟩
  | cons r l ih =>
    obtain ⟨hstart, hrest⟩ := h
    obtain ⟨hr, hl⟩ := List.forall_mem_cons.mp hne
    obtain ⟨hge, hlength, hpairs⟩ := ih hrest hl
    have hskip := le_skipAlignment (start + (record r.2).length)
    have hpos := List.length_pos_of_ne_nil hr
    rw [State.length_record] at hskip hge hlength
    refine ⟨List.forall_mem_cons.mpr ⟨hstart.ge, fun s hs => ?_⟩, ?_, ?_⟩
    · have := hge s hs
      omega
    · rw [List.length_cons]
      omega
    · rw [List.map_cons]
      refine List.Pairwise.cons ?_ hpairs
      intro offset hoffset
      obtain ⟨s, hs, rfl⟩ := List.mem_map.mp hoffset
      have := hge s hs
      omega

theorem length_encodeLen_le_iff {n k : Nat} : (encodeLen n).length ≤ k ↔ n < 128 ^ k := by
  induction k generalizing n with
  | zero =>
    rw [Nat.pow_zero, Nat.lt_one_iff]
    constructor
    · intro hnil
      by_contra hpos
      have := length_encodeLen_pos hpos
      omega
    · intro hzero
      rw [hzero, encodeLen_zero]
      exact Nat.le_refl 0
  | succ k ih =>
    have hpow := Nat.pow_pos (n := k) (show 0 < 128 by decide)
    rw [Nat.pow_succ]
    by_cases hle : n ≤ 127
    · apply iff_of_true
      · by_cases hzero : n = 0
        · rw [hzero, encodeLen_zero]
          exact Nat.zero_le _
        · rw [encodeLen_of_le hzero hle, List.length_singleton]
          omega
      · omega
    · rw [encodeLen_of_gt (by omega), List.length_cons, Nat.add_le_add_iff_right, ih,
        Nat.div_lt_iff_lt_mul (by decide)]

theorem length_encodeLen_le_nine {n : Nat} (h : n < 2 ^ 63) : (encodeLen n).length ≤ 9 :=
  length_encodeLen_le_iff.mpr h

theorem getStringLen_buffer {bytes : Nat → UInt8} {offset : Nat} {str : Bytes} (hne : str ≠ [])
    (hlength : str.length < 2 ^ 63)
    (hbytes : bytesAt bytes offset (record str).length = record str) :
    getStringLen (fun i => bytes (offset + i)) 0 = some (str.length, (encodeLen str.length).length) ∧
      bytesAt bytes (offset + (encodeLen str.length).length) str.length = str := by
  have hB := stringBlockSize_eq
  have hnine := length_encodeLen_le_nine hlength
  have hpos : str.length ≠ 0 := mt List.length_eq_zero_iff.mp hne
  rw [State.length_record, bytesAt_add, record] at hbytes
  obtain ⟨hlen, hstr⟩ := List.append_inj hbytes (length_bytesAt _ _ _)
  have hshifted : bytesAt (fun i => bytes (offset + i)) 0 (encodeLen str.length).length =
      encodeLen str.length := by
    rw [← hlen, length_bytesAt]
    apply List.map_congr_left
    intro i _
    rw [Nat.zero_add]
  exact ⟨getStringLen_encodeLen hpos hshifted (by omega) (by omega), hstr⟩

theorem sameString_iff {str other : Bytes} (hzero : 0 ∉ str) (hzero' : 0 ∉ other) :
    sameString str other ↔ str = other := by
  rw [sameString, cString_eq_self hzero, cString_eq_self hzero', decide_eq_true_eq]
  exact ⟨fun h => h.2, fun h => ⟨congrArg List.length h, h⟩⟩

namespace Interned

variable {st st' : ExternalStrings} {str : Bytes} {id : Nat}

/-- What one call does: a string that is there is found, another one is put at the end. -/
theorem cases_getOrCreate (h : Interned st) (hzero : 0 ∉ str)
    (hstep : getOrCreateExternalStringId st str = some (id, st')) :
    str.length < 2 ^ 63 ∧
      ((id, str) ∈ st.set ∧ st'.set = st.set ∧ st'.stop = st.stop ∨
        str ∉ st.set.map Prod.snd ∧ id = st.stop ∧ st'.set = (st.stop, str) :: st.set ∧
          st'.stop = skipAlignment (st.stop + (record str).length)) := by
  rw [getOrCreateExternalStringId] at hstep
  split_ifs at hstep with hmemory
  refine ⟨by omega, ?_⟩
  cases hfound : findString st.hash st.set str with
  | some found =>
    simp only [hfound, Option.some.injEq, Prod.mk.injEq] at hstep
    obtain ⟨hmem, hsame⟩ := mem_of_findString hfound
    replace hsame : found.2 = str := (sameString_iff (h.whole found hmem).1 hzero).mp hsame
    apply Or.inl
    rw [← hstep.1, ← hstep.2, ← hsame]
    exact ⟨hmem, rfl, rfl⟩
  | none =>
    simp only [hfound, Option.some.injEq, Prod.mk.injEq] at hstep
    apply Or.inr
    rw [← hstep.1, ← hstep.2]
    refine ⟨notMem_of_findString hfound, rfl, rfl, ?_⟩
    rw [skipAlignment, State.length_record, Nat.add_comm (encodeLen str.length).length]

theorem getOrCreate (h : Interned st) (hzero : 0 ∉ str) (hne : str ≠ [])
    (hstep : getOrCreateExternalStringId st str = some (id, st')) : Interned st' := by
  have hwellFormed := h.wellFormed.getOrCreate hstep
  obtain ⟨hlength, ⟨_, hset, hstop⟩ | ⟨hnew, _, hset, hstop⟩⟩ := h.cases_getOrCreate hzero hstep
  · exact ⟨hwellFormed, hstop ▸ h.room, by rw [hset, hstop]; exact h.chain, hset ▸ h.whole,
      hset ▸ h.aligned, hset ▸ h.nodup⟩
  · refine ⟨hwellFormed, hstop ▸ skipAlignment_room _, ?_, ?_, ?_, ?_⟩
    · rw [hset, hstop, List.reverse_cons]
      exact h.chain.append str
    · rw [hset]
      exact List.forall_mem_cons.mpr ⟨⟨hzero, hne, hlength⟩, h.whole⟩
    · rw [hset]
      exact List.forall_mem_cons.mpr ⟨h.room, h.aligned⟩
    · rw [hset, List.map_cons]
      exact List.nodup_cons.mpr ⟨hnew, h.nodup⟩

theorem empty (hash : Bytes → UInt64) (buffer : Nat → UInt8) :
    Interned { hash, bytes := buffer, set := [], stop := metadataSize } := by
  refine ⟨⟨Nat.le_refl _, ?_, ?_, ?_, ?_⟩, skipAlignment_room metadataSize, rfl, ?_, ?_, ?_⟩
  · show 8 < 2 ^ 64
    decide
  all_goals simp

theorem mem_getOrCreate (h : Interned st) (hzero : 0 ∉ str)
    (hstep : getOrCreateExternalStringId st str = some (id, st')) :
    (id, str) ∈ st'.set ∧ ∀ r ∈ st.set, r ∈ st'.set := by
  obtain ⟨_, ⟨hmem, hset, _⟩ | ⟨_, hid, hset, _⟩⟩ := h.cases_getOrCreate hzero hstep
  · rw [hset]
    exact ⟨hmem, fun _ hr => hr⟩
  · rw [hset, hid]
    exact ⟨List.mem_cons_self, fun _ hr => List.mem_cons_of_mem _ hr⟩

theorem of_mem_getOrCreate (h : Interned st) (hzero : 0 ∉ str)
    (hstep : getOrCreateExternalStringId st str = some (id, st')) {r : Nat × Bytes}
    (hr : r ∈ st'.set) : r = (id, str) ∨ r ∈ st.set := by
  obtain ⟨_, ⟨_, hset, _⟩ | ⟨_, hid, hset, _⟩⟩ := h.cases_getOrCreate hzero hstep
  · exact Or.inr (hset ▸ hr)
  · rw [hset, List.mem_cons, ← hid] at hr
    exact hr

theorem increasing (h : Interned st) : metadataSize + st.set.length ≤ st.stop ∧
    (st.set.reverse.map Prod.fst).Pairwise (· < ·) := by
  have hchain := h.chain.increasing fun r hr => (h.whole r (List.mem_reverse.mp hr)).2.1
  rw [List.length_reverse] at hchain
  exact hchain.2

theorem eq_iff (h : Interned st) {r s : Nat × Bytes} (hr : r ∈ st.set) (hs : s ∈ st.set) :
    r.2 = s.2 ↔ r.1 = s.1 := by
  have hfirst : (st.set.map Prod.fst).Nodup := by
    rw [← List.nodup_reverse, ← List.map_reverse]
    exact h.increasing.2.imp fun hlt => hlt.ne
  constructor
  · intro heq
    exact congrArg Prod.fst (List.inj_on_of_nodup_map h.nodup hr hs heq)
  · intro heq
    exact congrArg Prod.snd (List.inj_on_of_nodup_map hfirst hr hs heq)

theorem scanLoop_eq (h : Interned st) : ∀ (l : List (Nat × Bytes)) (start fuel : Nat),
    Chain start l st.stop → (∀ r ∈ l, r ∈ st.set) → l.length < fuel →
      scanLoop st fuel start = some l := by
  intro l
  induction l with
  | nil =>
    intro start fuel hchain _ hfuel
    obtain ⟨fuel, rfl⟩ := Nat.exists_eq_add_of_lt hfuel
    rw [Chain] at hchain
    rw [scanLoop, hchain, if_neg (lt_irrefl _)]
  | cons r l ih =>
    intro start fuel hchain hset hfuel
    rw [List.length_cons] at hfuel
    obtain ⟨fuel, rfl⟩ : ∃ m, fuel = m + 1 := ⟨fuel - 1, by omega⟩
    obtain ⟨hr, hl⟩ := List.forall_mem_cons.mp hset
    obtain ⟨hstart, hrest⟩ := hchain
    obtain ⟨_, hne, hlength⟩ := h.whole r hr
    obtain ⟨hlen, hstr⟩ := getStringLen_buffer hne hlength (h.wellFormed.bytes r hr)
    have hlast := h.wellFormed.last r hr
    have hpos := List.length_pos_of_ne_nil hne
    rw [State.length_record] at hrest hlast
    rw [hstart] at hlen hstr hlast
    rw [scanLoop, if_pos (by omega), hlen]
    simp only [Option.bind_eq_bind, Option.bind_some]
    rw [ih _ fuel hrest hl (by omega), Option.bind_some, hstr, ← hstart]

theorem writeEnd (h : Interned st) :
    Interned { st with bytes := memcpy st.bytes 0 (writeUint64 st.stop) } := by
  refine ⟨⟨h.wellFormed.metadata, h.wellFormed.stop, h.wellFormed.first, h.wellFormed.last, ?_⟩,
    h.room, h.chain, h.whole, h.aligned, h.nodup⟩
  intro r hr
  have hfirst := h.wellFormed.first r hr
  have hmeta : metadataSize = 8 := rfl
  have hlength : (writeUint64 st.stop).length = 8 := rfl
  rw [← h.wellFormed.bytes r hr, length_bytesAt]
  apply List.map_congr_left
  intro i _
  exact memcpy_of_le (show 0 + (writeUint64 st.stop).length ≤ r.1 + i by omega)

theorem scan_eq (h : Interned st) : scan st = some st.set.reverse := by
  have hlength := h.increasing.1
  apply h.writeEnd.scanLoop_eq _ _ _ h.chain fun r hr => List.mem_reverse.mp hr
  rw [List.length_reverse]
  omega

end Interned

theorem internAll_spec {strs : List Bytes} (hstrs : ∀ str ∈ strs, 0 ∉ str ∧ str ≠ []) :
    ∀ {st file : ExternalStrings} {ids : List Nat}, Interned st →
      internAll strs st = some (ids, file) → Interned file ∧ ids.length = strs.length ∧
        (∀ r ∈ ids.zip strs, r ∈ file.set) ∧ (∀ r ∈ st.set, r ∈ file.set) ∧
        ∀ r ∈ file.set, r ∈ ids.zip strs ∨ r ∈ st.set := by
  induction strs with
  | nil =>
    intro st file ids hst h
    rw [internAll, Option.some.injEq, Prod.mk.injEq] at h
    rw [← h.1, ← h.2]
    exact ⟨hst, rfl, fun r hr => absurd hr (by simp), fun _ hr => hr, fun _ hr => Or.inr hr⟩
  | cons str strs ih =>
    intro st file ids hst h
    obtain ⟨⟨hzero, hne⟩, hstrs⟩ := List.forall_mem_cons.mp hstrs
    rw [internAll, Option.bind_eq_bind] at h
    obtain ⟨⟨id, st'⟩, hstep, h⟩ := Option.bind_eq_some_iff.mp h
    obtain ⟨⟨ids', file'⟩, hrest, h⟩ := Option.bind_eq_some_iff.mp h
    simp only [Option.some.injEq, Prod.mk.injEq] at h
    rw [← h.1, ← h.2]
    obtain ⟨hfile, hlength, hin, hkept, hall⟩ := ih hstrs (hst.getOrCreate hzero hne hstep) hrest
    obtain ⟨hmem, hold⟩ := hst.mem_getOrCreate hzero hstep
    refine ⟨hfile, by rw [List.length_cons, List.length_cons, hlength], ?_,
      fun r hr => hkept r (hold r hr), ?_⟩
    · rw [List.zip_cons_cons]
      exact List.forall_mem_cons.mpr ⟨hkept _ hmem, hin⟩
    · intro r hr
      rw [List.zip_cons_cons, List.mem_cons]
      rcases hall r hr with hr | hr
      · exact Or.inl (Or.inr hr)
      · rcases hst.of_mem_getOrCreate hzero hstep hr with hr | hr
        · exact Or.inl (Or.inl hr)
        · exact Or.inr hr

structure Interns (strs : List Bytes) (ids : List Nat) (file : ExternalStrings) : Prop where
  length : ids.length = strs.length
  same : ∀ r ∈ ids.zip strs, ∀ s ∈ ids.zip strs, r.2 = s.2 ↔ r.1 = s.1
  stored : ∀ r ∈ ids.zip strs, bytesAt file.bytes r.1 (record r.2).length = record r.2
  inBlock : ∀ r ∈ ids.zip strs,
    r.1 % stringBlockSize + (encodeLen r.2.length).length ≤ stringBlockSize
  scanned : ∃ calls, scan file = some calls ∧ (calls.map Prod.fst).Pairwise (· < ·) ∧
    (calls.map Prod.snd).Nodup ∧ (∀ r, r ∈ calls ↔ r ∈ ids.zip strs) ∧
    ∀ xxh3, stringsHash xxh3 file = StringsHash.importStrings xxh3 calls

/-- Equal strings get equal ids, every id is where its string is, and the scan passes every string
once, with its id.  Only strings of eight bytes or more are interned. -/
theorem interns_of_interned {hash : Bytes → UInt64} {buffer : Nat → UInt8} {strs : List Bytes}
    {ids : List Nat} {file : ExternalStrings} (hzero : ∀ str ∈ strs, 0 ∉ str)
    (hlong : ∀ str ∈ strs, 8 ≤ str.length) (h : interned hash buffer strs = some (ids, file)) : Interns strs ids file := by
  have hstrs : ∀ str ∈ strs, 0 ∉ str ∧ str ≠ [] := by
    intro str hstr
    refine ⟨hzero str hstr, fun hnil => ?_⟩
    have := hlong str hstr
    rw [hnil, List.length_nil] at this
    omega
  obtain ⟨hfile, hlength, hin, _, hall⟩ := internAll_spec hstrs (Interned.empty hash buffer) h
  refine ⟨hlength, fun r hr s hs => hfile.eq_iff (hin r hr) (hin s hs),
    fun r hr => hfile.wellFormed.bytes r (hin r hr), ?_, file.set.reverse, hfile.scan_eq,
    hfile.increasing.2, ?_, ?_, ?_⟩
  · intro r hr
    have hmin : minPageRemainingBytes = 9 := rfl
    have haligned := hfile.aligned r (hin r hr)
    have hnine := length_encodeLen_le_nine (hfile.whole r (hin r hr)).2.2
    omega
  · rw [List.map_reverse, List.nodup_reverse]
    exact hfile.nodup
  · intro r
    rw [List.mem_reverse]
    refine ⟨fun hr => ?_, hin r⟩
    rcases hall r hr with hr | hr
    · exact hr
    · exact absurd hr List.not_mem_nil
  · intro xxh3
    rw [stringsHash, hfile.scan_eq, Option.bind_some]

/-- The same string twice, and another one. -/
theorem interns_letters : ∃ file, Interns
    [List.replicate 8 97, List.replicate 9 98, List.replicate 8 97] [8, 17, 8] file := by
  have hlen8 : encodeLen 8 = [8] := encodeLen_of_le (by decide) (by decide)
  have hlen9 : encodeLen 9 = [9] := encodeLen_of_le (by decide) (by decide)
  have hinterned : ∃ file, interned (fun _ => 0) (fun _ => 0)
      [List.replicate 8 97, List.replicate 9 98, List.replicate 8 97] = some ([8, 17, 8], file) := by
    simp only [interned, internAll, getOrCreateExternalStringId, List.length_replicate, hlen8, hlen9]
    exact ⟨_, rfl⟩
  obtain ⟨file, hfile⟩ := hinterned
  exact ⟨file, interns_of_interned (by decide) (by decide) hfile⟩

end StringManager.Import
end MillenniumDB
