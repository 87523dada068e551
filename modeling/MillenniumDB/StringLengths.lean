import MillenniumDB.ImportedStrings

/-!
# Lengths of external strings

The import and `create_new` write the same bytes for a length.  The import leaves room for nine bytes in
every block; `create_new` leaves room for as many as it computes from the lowest bit of the length,
which are too few for a long odd length.
-/

namespace MillenniumDB
namespace StringManager

/-- The length that `create_new` writes is read back from the block of the id. -/
def State.LengthReadsBack (st : State) (str : Bytes) : Prop :=
  ∃ id st', st.createNew str = some (id, st') ∧ ∃ block,
    st'.stringBlocks[id / stringBlockSize]? = some block ∧
    getStringLen block.bytes (id % stringBlockSize) =
      some (str.length, (encodeLen str.length).length) ∧
    id % stringBlockSize + (encodeLen str.length).length ≤ stringBlockSize

def Import.LengthReadsBack (file : ExternalStrings) (str : Bytes) : Prop :=
  ∀ id file', getOrCreateExternalStringId file str = some (id, file') →
    getStringLen (fun i => file'.bytes (file.stop + i)) 0 =
      some (str.length, (encodeLen str.length).length) ∧
    file.stop % stringBlockSize + (encodeLen str.length).length ≤ stringBlockSize

/-- The block in which the next string begins has room for the longest length. -/
def Import.HasRoom (file : ExternalStrings) : Prop :=
  file.stop % stringBlockSize + minPageRemainingBytes ≤ stringBlockSize

theorem Import.HasRoom.getOrCreate {file file' : ExternalStrings} {str : Bytes} {id : Nat}
    (h : HasRoom file) (hstep : getOrCreateExternalStringId file str = some (id, file')) :
    HasRoom file' := by
  rw [getOrCreateExternalStringId] at hstep
  split_ifs at hstep
  cases hfound : findString file.hash file.set str with
  | some found =>
    simp only [hfound, Option.some.injEq, Prod.mk.injEq] at hstep
    rw [← hstep.2]
    exact h
  | none =>
    simp only [hfound, Option.some.injEq, Prod.mk.injEq] at hstep
    rw [← hstep.2]
    exact skipAlignment_room _

theorem Import.HasRoom.lengthReadsBack {file : ExternalStrings} (h : HasRoom file) {str : Bytes}
    (hne : str ≠ []) : LengthReadsBack file str := by
  intro id file' hstep
  have hroom : file.stop % stringBlockSize + minPageRemainingBytes ≤ stringBlockSize := h
  have hmin : minPageRemainingBytes = 9 := rfl
  rw [getOrCreateExternalStringId] at hstep
  split_ifs at hstep with hmemory
  have hbytes : file'.bytes = memcpy file.bytes file.stop (record str) := by
    cases hfound : findString file.hash file.set str with
    | some found =>
      simp only [hfound, Option.some.injEq, Prod.mk.injEq] at hstep
      rw [← hstep.2]
      rfl
    | none =>
      simp only [hfound, Option.some.injEq, Prod.mk.injEq] at hstep
      rw [← hstep.2]
      rfl
  have hlength : str.length < 2 ^ 63 := by omega
  have hnine := length_encodeLen_le_nine hlength
  have hwritten : bytesAt file'.bytes file.stop (record str).length = record str := by
    rw [hbytes]
    exact bytesAt_memcpy _ _ _
  exact ⟨(getStringLen_buffer hne hlength hwritten).1, by omega⟩

namespace State

variable {st : State} {str : Bytes}

theorem copyString_keeps (str : Bytes) : ∀ (fuel remainingWrite : Nat) (st : State),
    0 < st.stringBlocks.length → st.lastBlockOffset ≤ stringBlockSize → remainingWrite ≤ str.length →
      remainingWrite + (if st.lastBlockOffset = stringBlockSize then 2 else 1) ≤ fuel →
      ∃ st', copyString str fuel remainingWrite st = some st' ∧ 0 < st'.stringBlocks.length ∧
        st'.lastBlockOffset ≤ stringBlockSize ∧ ∀ p < st.last, st'.byteAt p = st.byteAt p := by
  intro fuel
  induction fuel with
  | zero =>
    intro remainingWrite st _ _ _ hfuel
    split_ifs at hfuel <;> omega
  | succ fuel ih =>
    intro remainingWrite st hblocks hoffset hremaining hfuel
    rw [copyString]
    by_cases hdone : remainingWrite = 0
    · rw [if_pos hdone]
      exact ⟨st, rfl, hblocks, hoffset, fun _ _ => rfl⟩
    · rw [if_neg hdone]
      by_cases hfits : remainingWrite ≤ stringBlockSize - st.lastBlockOffset
      · have hlength : (str.take remainingWrite).length = remainingWrite := by
          rw [List.length_take]
          omega
        obtain ⟨st₁, hwrite, hoffset₁, hlength₁, hframe, _⟩ :=
          writeLast_spec hblocks
            (show st.lastBlockOffset + (str.take remainingWrite).length ≤ stringBlockSize by omega)
        obtain ⟨m, hm⟩ : ∃ m, fuel = m + 1 := ⟨fuel - 1, by split_ifs at hfuel <;> omega⟩
        simp only [if_pos hfits, hwrite, Option.bind_some, hm]
        rw [copyString, if_pos rfl]
        exact ⟨st₁, rfl, by omega, by omega, hframe⟩
      · -- the rest of the string goes to a new block
        have hlength : (str.take (stringBlockSize - st.lastBlockOffset)).length =
            stringBlockSize - st.lastBlockOffset := by
          rw [List.length_take]
          omega
        obtain ⟨st₁, hwrite, hoffset₁, hlength₁, hframe, _⟩ :=
          writeLast_spec hblocks (show st.lastBlockOffset +
            (str.take (stringBlockSize - st.lastBlockOffset)).length ≤ stringBlockSize by omega)
        obtain ⟨st₂, happend, hoffset₂, hlength₂, hframe₂⟩ :=
          appendNewBlock_spec (show 0 < st₁.stringBlocks.length by omega)
        have hB := stringBlockSize_eq
        obtain ⟨st₃, hcopy, hblocks₃, hoffset₃, hframe₃⟩ :=
          ih (remainingWrite - (stringBlockSize - st.lastBlockOffset)) st₂ (by omega) (by omega)
            (by omega) (by rw [if_neg (by omega)]; split_ifs at hfuel <;> omega)
        simp only [if_neg hfits, hwrite, happend, Option.bind_eq_bind, Option.bind_some]
        refine ⟨st₃, hcopy, hblocks₃, hoffset₃, fun p hp => ?_⟩
        have hblock : p < st₁.stringBlocks.length * stringBlockSize := by
          have hmul : (st.stringBlocks.length - 1 + 1) * stringBlockSize =
              (st.stringBlocks.length - 1) * stringBlockSize + stringBlockSize := Nat.succ_mul _ _
          rw [Nat.sub_add_cancel hblocks] at hmul
          rw [last] at hp
          rw [hlength₁]
          omega
        have hlast₂ : st₂.last = st₁.stringBlocks.length * stringBlockSize := by
          rw [last, hlength₂, hoffset₂, Nat.add_sub_cancel, Nat.add_zero]
        rw [hframe₃ p (by omega), hframe₂ p hblock, hframe p hp]

theorem lengthReadsBack_of_fits (h : st.WellFormed) (hne : str ≠ []) (hlt : str.length < 2 ^ 64)
    {n : Nat} (hn : bytesForLen str.length = some n)
    (hfits : stringBlockSize ≤ st.lastBlockOffset + n ∨
      st.lastBlockOffset + (encodeLen str.length).length ≤ stringBlockSize) :
    st.LengthReadsBack str := by
  have hB := stringBlockSize_eq
  have hpos : str.length ≠ 0 := mt List.length_eq_zero_iff.mp hne
  have hencode := length_encodeLen_pos hpos
  have hten : (encodeLen str.length).length ≤ 10 := by
    apply Import.length_encodeLen_le_iff.mpr
    omega
  obtain ⟨st₁, henter, hstart, hblocks₁, hmeta₁, _, _, _⟩ := makeRoom_spec h hn
  have hstart₁ : st₁.lastBlockOffset + (encodeLen str.length).length ≤ stringBlockSize := by
    rw [hstart, start, hn, Option.getD_some]
    split_ifs <;> omega
  obtain ⟨st₂, hwrite₂, hoffset₂, hlength₂, _, hbytes₂⟩ := writeLast_spec hblocks₁ hstart₁
  obtain ⟨st₃, hcopy, hblocks₃, hoffset₃, hframe₃⟩ := copyString_keeps str (str.length + 3) str.length
    st₂ (by omega) (by omega) (Nat.le_refl _) (by split_ifs <;> omega)
  have hlast₂ : st₂.last = st₁.last + (encodeLen str.length).length := by
    rw [last, last, hlength₂, hoffset₂, Nat.add_assoc]
  obtain ⟨_, hframe₄⟩ := updateLastBlockOffset_spec hblocks₃ (by omega)
  have hmeta := metadataSize_le_last hblocks₁ hmeta₁
  have hmod : st₁.last % stringBlockSize = st₁.lastBlockOffset := by
    rw [last, block_mod (by omega)]
  have hwritten : ∀ i (hi : i < (encodeLen str.length).length),
      st₃.updateLastBlockOffset.byteAt (st₁.last + i) = some (encodeLen str.length)[i] := by
    intro i hi
    rw [hframe₄ _ (by omega), hframe₃ _ (by omega), hbytes₂ i hi]
  obtain ⟨block, hblock, hbytes⟩ := exists_block_of_byteAt hencode (by omega) hwritten
  refine ⟨st₁.last, st₃.updateLastBlockOffset, ?_, block, hblock,
    getStringLen_encodeLen hpos hbytes (by omega) hlt, by omega⟩
  simp only [createNew, hn, Option.bind_eq_bind, Option.bind_some, henter, hwrite₂, hcopy]
  rfl

theorem fits_of_lengthReadsBack (h : st.LengthReadsBack str) : ∃ n, bytesForLen str.length = some n ∧
    (stringBlockSize ≤ st.lastBlockOffset + n ∨
      st.lastBlockOffset + (encodeLen str.length).length ≤ stringBlockSize) := by
  obtain ⟨id, st', hcreate, _⟩ := h
  simp only [createNew, Option.bind_eq_bind] at hcreate
  obtain ⟨n, hn, hcreate⟩ := Option.bind_eq_some_iff.mp hcreate
  obtain ⟨st₁, henter, hcreate⟩ := Option.bind_eq_some_iff.mp hcreate
  obtain ⟨st₂, hwrite, _⟩ := Option.bind_eq_some_iff.mp hcreate
  refine ⟨n, hn, ?_⟩
  by_cases hnew : stringBlockSize ≤ st.lastBlockOffset + n
  · exact Or.inl hnew
  · rw [makeRoom, if_neg hnew, Option.some.injEq] at henter
    rw [← henter, writeLast] at hwrite
    split_ifs at hwrite with hfits
    exact Or.inr hfits

end State

theorem ctz_eq_some_iff {n z : Nat} : ctz n = some z ↔
    z < 32 ∧ n.testBit z ∧ ∀ j < z, n.testBit j = false := by
  rw [ctz, List.find?_range_eq_some]
  simp only [List.mem_range, Bool.not_eq_true']
  exact and_left_comm

/-- Every import leaves room, and then its lengths are read back.  A length of `create_new` is read back exactly when its lowest
bit is among the lower 32, and a new block is begun or the length fits the last block. -/
theorem lengths_readBack_iff {str : Bytes} (hne : str ≠ []) (hlt : str.length < 2 ^ 64) :
    (∀ hash buffer strs file, Import.externalStrings hash buffer strs = some file →
      Import.HasRoom file) ∧ (∀ file, Import.HasRoom file → Import.LengthReadsBack file str) ∧
    ∀ st : State, st.WellFormed → (st.LengthReadsBack str ↔
      ∃ z < 32, str.length.testBit z ∧ (∀ j < z, str.length.testBit j = false) ∧
        (stringBlockSize ≤ st.lastBlockOffset + ((z - 1) / 7 + 1) ∨
          ∃ k, str.length < 128 ^ k ∧ st.lastBlockOffset + k ≤ stringBlockSize)) := by
  refine ⟨fun _ _ _ _ => Import.externalStrings_induct (fun _ _ _ _ h hcall => h.getOrCreate hcall)
    (Import.skipAlignment_room metadataSize), fun file hfile => hfile.lengthReadsBack hne,
    fun st hst => ?_⟩
  constructor
  · intro h
    obtain ⟨n, hn, hfits⟩ := State.fits_of_lengthReadsBack h
    obtain ⟨z, hz, rfl⟩ := Option.map_eq_some_iff.mp hn
    obtain ⟨hz32, hbit, hlow⟩ := ctz_eq_some_iff.mp hz
    refine ⟨z, hz32, hbit, hlow, ?_⟩
    rcases hfits with hnew | hfits
    · exact Or.inl hnew
    · exact Or.inr ⟨_, Import.length_encodeLen_le_iff.mp (Nat.le_refl _), hfits⟩
  · intro ⟨z, hz32, hbit, hlow, hfits⟩
    have hz := ctz_eq_some_iff.mpr ⟨hz32, hbit, hlow⟩
    have hn : bytesForLen str.length = some ((z - 1) / 7 + 1) := by
      rw [bytesForLen, hz, Option.map_some]
    apply State.lengthReadsBack_of_fits hst hne hlt hn
    rcases hfits with hnew | ⟨k, hk, hfits⟩
    · exact Or.inl hnew
    · have hlength := Import.length_encodeLen_le_iff.mpr hk
      exact Or.inr (by omega)

def State.filled (offset : Nat) : State :=
  State.updateLastBlockOffset ⟨[.shared fun _ => 0], offset⟩

theorem State.wellFormed_filled {offset : Nat} (hmeta : metadataSize ≤ offset)
    (hlt : offset < 2 ^ 64) : (State.filled offset).WellFormed := by
  have hblocks : 0 < (⟨[.shared fun _ => 0], offset⟩ : State).stringBlocks.length := Nat.one_pos
  refine ⟨?_, (updateLastBlockOffset_spec hblocks hlt).1, fun _ => hmeta⟩
  rw [filled, updateLastBlockOffset, length_write]
  exact hblocks

/-- Three hundred letters after the metadata. -/
theorem lengths_readBack_letters : (State.filled 8).LengthReadsBack (List.replicate 300 97) := by
  have hlength : (List.replicate 300 (97 : UInt8)).length = 300 := List.length_replicate
  have hne : List.replicate 300 (97 : UInt8) ≠ [] :=
    List.ne_nil_of_length_pos (by rw [hlength]; decide)
  refine ((lengths_readBack_iff hne (by rw [hlength]; decide)).2.2 _
    (State.wellFormed_filled (Nat.le_refl 8) (by decide))).mpr ⟨2, by decide, ?_, ?_, Or.inr ⟨2, ?_, ?_⟩⟩
  · rw [hlength]
    decide
  · rw [hlength]
    decide
  · rw [hlength]
    decide
  · decide

/-- A length of three bytes, of which `create_new` expects one, two bytes before the end of a block. -/
theorem not_lengthReadsBack_odd : ¬ ∀ (st : State) (str : Bytes), st.WellFormed → str ≠ [] →
    str.length < 2 ^ 64 → st.LengthReadsBack str := by
  intro hall
  have hB := stringBlockSize_eq
  have hlength : (List.replicate 16385 (97 : UInt8)).length = 16385 := List.length_replicate
  have hwellFormed : (State.filled (stringBlockSize - 2)).WellFormed :=
    State.wellFormed_filled (by decide) (by decide)
  have hne : List.replicate 16385 (97 : UInt8) ≠ [] :=
    List.ne_nil_of_length_pos (by rw [hlength]; decide)
  obtain ⟨n, hn, hfits⟩ := State.fits_of_lengthReadsBack
    (hall _ _ hwellFormed hne (by rw [hlength]; decide))
  have hone : bytesForLen 16385 = some 1 := by decide
  have hoffset : (State.filled (stringBlockSize - 2)).lastBlockOffset = stringBlockSize - 2 := rfl
  rw [hlength, hone, Option.some.injEq] at hn
  have hthree : ¬ (encodeLen 16385).length ≤ 2 := by
    rw [Import.length_encodeLen_le_iff]
    decide
  rw [hlength, hoffset] at hfits
  omega

end StringManager
end MillenniumDB
