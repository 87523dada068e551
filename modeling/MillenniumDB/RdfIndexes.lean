import MillenniumDB.LeafCheck
import MillenniumDB.RdfImport

/-!
# The indexes of an RDF import

The four orderings of the triples, the trees of those with equal positions and the counts of the
catalog are those of one set of triples, as long as no statement repeats an earlier one.
-/

namespace MillenniumDB
namespace ImportRdf

open Import (column bind_eq_ok collected_vectorOf createTwoBpts_ok length_tuples tuple2 tuple3
  vectorOf)

abbrev Triple := Nat × Nat × Nat

section

variable (env : Environment)

def tripleOf (statement : Statement) (ids : Ids) : Except String (Option Triple × Ids) := do
  let (objectId, ids) ← handleObject env statement ids
  match objectId with
  | none => return (none, ids)
  | some objectId =>
    let (subjectId, ids) ← handleSubject env statement.subject ids
    let (predicateId, ids) ← handlePredicate env statement.predicate ids
    return (some (subjectId, predicateId, objectId), ids)

/-- No statement that is accepted gives a triple that an earlier one gave. -/
def RepeatsNothing (s : OnDiskImport) (statements : List Statement) : Prop :=
  ∀ read statement rest mid, statements = read ++ statement :: rest →
    readStatements env s read = .ok mid → ∀ triple ids,
      tripleOf env statement mid.ids = .ok (some triple, ids) → triple ∉ mid.triples

end

section

variable {env : Environment} {statement : Statement} {s s' : OnDiskImport}

theorem onStatement_cases (h : onStatement env s statement = .ok s') :
    (∃ ids, tripleOf env statement s.ids = .ok (none, ids) ∧ s' = { s with ids := ids }) ∨
      ∃ triple ids, tripleOf env statement s.ids = .ok (some triple, ids) ∧
        s' = saveTriple triple.1 triple.2.1 triple.2.2 { s with ids := ids } := by
  rw [onStatement] at h
  rw [tripleOf]
  cases hobject : handleObject env statement s.ids with
  | error e =>
    rw [hobject] at h
    cases h
  | ok r =>
    obtain ⟨objectId, ids⟩ := r
    rw [hobject] at h
    cases objectId with
    | none => exact .inl ⟨ids, rfl, (Except.ok.inj h).symm⟩
    | some objectId =>
      refine .inr ?_
      cases hsubject : handleSubject env statement.subject ids with
      | error e =>
        simp only [bind, Except.bind, hsubject] at h
        cases h
      | ok r =>
        cases hpredicate : handlePredicate env statement.predicate r.2 with
        | error e =>
          simp only [bind, Except.bind, hsubject, hpredicate] at h
          cases h
        | ok r' =>
          simp only [bind, Except.bind, hsubject, hpredicate] at h ⊢
          exact ⟨(r.1, r'.1, objectId), r'.2, rfl, (Except.ok.inj h).symm⟩

theorem or_ne_zero {a b : Nat} (hb : b ≠ 0) : a ||| b ≠ 0 := by
  intro h
  exact hb (Nat.or_eq_zero_iff.mp h).2

theorem or_or_ne_zero {a b : Nat} (hb : b ≠ 0) (c : Nat) : a ||| b ||| c ≠ 0 := by
  intro h
  exact or_ne_zero hb (Nat.or_eq_zero_iff.mp h).1

theorem getIriId_ne_zero (ids : Ids) (prefixes : List Bytes) (str : Bytes) :
    (getIriId ids prefixes str).1 ≠ 0 := by
  simp only [getIriId]
  split_ifs
  · exact or_or_ne_zero (by decide) _
  · exact or_or_ne_zero (by decide) _

theorem getBlankId_ne_zero (ids : Ids) (str : Bytes) : (getBlankId ids str).1 ≠ 0 :=
  or_ne_zero (by decide)

theorem taggedId_ne_zero {maskInlined maskExtern : Nat} (hinlined : maskInlined ≠ 0)
    (hmask : maskExtern ≠ 0) (ids : Ids) (tagId : Nat) (str : Bytes) :
    (taggedId ids maskInlined maskExtern tagId str).1 ≠ 0 := by
  rw [taggedId]
  split_ifs
  · exact or_or_ne_zero hinlined _
  · exact or_or_ne_zero hmask _

theorem literalId_ne_zero (ids : Ids) (str : Bytes) : (literalId ids str).1 ≠ 0 := by
  rw [literalId]
  split_ifs
  · exact or_ne_zero (by decide)
  · exact or_ne_zero (by decide)

theorem literalDatatypeId_ne_zero {ids ids' : Ids} {str datatype : Bytes} {id : Nat}
    (h : literalDatatypeId ids str datatype = some (some id, ids')) : id ≠ 0 := by
  simp only [literalDatatypeId] at h
  split_ifs at h
  · -- a date
    cases hdate : DateTime.getDatetimeId (cString str) with
    | none => simp [hdate] at h
    | some datetimeId =>
      simp only [hdate, Option.bind_eq_bind, Option.bind_some] at h
      split_ifs at h
      · cases h
      · cases h
        exact or_ne_zero (by decide)
  · cases h
    exact or_ne_zero (by decide)
  · cases h
    exact or_ne_zero (by decide)
  · cases h
    decide
  · cases h
    decide
  · cases h
  · cases h
    exact taggedId_ne_zero (by decide) (by decide) _ _ _

theorem handleObject_ne_zero {ids ids' : Ids} {id : Nat}
    (h : handleObject env statement ids = .ok (some id, ids')) : id ≠ 0 := by
  simp only [handleObject] at h
  split at h
  · cases h
    exact getIriId_ne_zero _ _ _
  · cases h
    exact getIriId_ne_zero _ _ _
  · cases h
    exact getBlankId_ne_zero _ _
  · split at h
    · split at h
      · rename_i hid
        cases h
        exact literalDatatypeId_ne_zero hid
      · cases h
    · cases h
      exact taggedId_ne_zero (by decide) (by decide) _ _ _
    · cases h
      exact literalId_ne_zero _ _
  · cases h

theorem handleSubject_ne_zero {subject : SerdNode} {ids : Ids} {r : Nat × Ids}
    (h : handleSubject env subject ids = .ok r) : r.1 ≠ 0 := by
  rw [handleSubject] at h
  split at h
  · cases h
    exact getIriId_ne_zero _ _ _
  · cases h
    exact getIriId_ne_zero _ _ _
  · cases h
    exact getBlankId_ne_zero _ _
  · cases h

theorem handlePredicate_ne_zero {predicate : SerdNode} {ids : Ids} {r : Nat × Ids}
    (h : handlePredicate env predicate ids = .ok r) : r.1 ≠ 0 := by
  rw [handlePredicate] at h
  split at h
  · cases h
    exact getIriId_ne_zero _ _ _
  · cases h
    exact getIriId_ne_zero _ _ _
  · cases h

theorem tripleOf_ne_zero {ids ids' : Ids} {triple : Triple}
    (h : tripleOf env statement ids = .ok (some triple, ids')) :
    triple.1 ≠ 0 ∧ triple.2.1 ≠ 0 ∧ triple.2.2 ≠ 0 := by
  rw [tripleOf] at h
  cases hobject : handleObject env statement ids with
  | error e =>
    rw [hobject] at h
    cases h
  | ok r =>
    obtain ⟨objectId, ids₁⟩ := r
    rw [hobject] at h
    cases objectId with
    | none => cases h
    | some objectId =>
      cases hsubject : handleSubject env statement.subject ids₁ with
      | error e =>
        simp only [bind, Except.bind, hsubject] at h
        cases h
      | ok r =>
        cases hpredicate : handlePredicate env statement.predicate r.2 with
        | error e =>
          simp only [bind, Except.bind, hsubject, hpredicate] at h
          cases h
        | ok r' =>
          simp only [bind, Except.bind, hsubject, hpredicate] at h
          cases h
          exact ⟨handleSubject_ne_zero hsubject, handlePredicate_ne_zero hpredicate,
            handleObject_ne_zero hobject⟩

end

def selects : Index → Triple → Bool
  | .spo | .pos | .osp | .pso => fun _ => true
  | .equalSpo => fun t => t.1 = t.2.1 ∧ t.1 = t.2.2
  | .equalSp | .equalSpInverted => fun t => t.1 = t.2.1
  | .equalSo | .equalSoInverted => fun t => t.1 = t.2.2
  | .equalPo | .equalPoInverted => fun t => t.2.1 = t.2.2

def recordOf : Index → Triple → Tuple
  | .spo => fun t => [t.1, t.2.1, t.2.2]
  | .pos => fun t => [t.2.1, t.2.2, t.1]
  | .osp => fun t => [t.2.2, t.1, t.2.1]
  | .pso => fun t => [t.2.1, t.1, t.2.2]
  | .equalSpo => fun t => [t.1]
  | .equalSp => fun t => [t.1, t.2.2]
  | .equalSo => fun t => [t.1, t.2.1]
  | .equalPo => fun t => [t.2.1, t.1]
  | .equalSpInverted => fun t => [t.2.2, t.1]
  | .equalSoInverted => fun t => [t.2.1, t.1]
  | .equalPoInverted => fun t => [t.1, t.2.1]

def recordsOf (triples : List Triple) (i : Index) : List Tuple :=
  (triples.filter (selects i)).map (recordOf i)

/-- What is kept of triples with equal positions goes with the triples; no id is 0. -/
structure Filed (s : OnDiskImport) : Prop where
  equalSpo : s.equalSpo.map ([·]) = recordsOf s.triples .equalSpo
  equalSp : s.equalSp.map tuple2 = recordsOf s.triples .equalSp
  equalSo : s.equalSo.map tuple2 = recordsOf s.triples .equalSo
  equalPo : s.equalPo.map tuple2 = recordsOf s.triples .equalPo
  ne_zero : ∀ t ∈ s.triples, t.1 ≠ 0 ∧ t.2.1 ≠ 0 ∧ t.2.2 ≠ 0

theorem filed_start (hash : Bytes → UInt64) : Filed (.start hash) := by
  constructor
  · rfl
  · rfl
  · rfl
  · rfl
  · exact fun _ h => absurd h List.not_mem_nil

theorem recordsOf_append (triples : List Triple) (t : Triple) (i : Index) :
    recordsOf (triples ++ [t]) i =
      recordsOf triples i ++ if selects i t then [recordOf i t] else [] := by
  rw [recordsOf, List.filter_append, List.map_append, List.filter_singleton]
  cases selects i t <;> rfl

section

variable {env : Environment} {statement : Statement} {statements : List Statement}
  {s s' : OnDiskImport}

theorem Filed.saveTriple (h : Filed s) {t : Triple} (ht : t.1 ≠ 0 ∧ t.2.1 ≠ 0 ∧ t.2.2 ≠ 0)
    (ids : Ids) : Filed (saveTriple t.1 t.2.1 t.2.2 { s with ids := ids }) := by
  constructor
  · show (s.equalSpo ++ _).map _ = recordsOf (s.triples ++ [t]) .equalSpo
    rw [recordsOf_append, List.map_append, h.equalSpo]
    by_cases hall : t.1 = t.2.1 ∧ t.1 = t.2.2
    · rw [if_pos hall, if_pos (by exact decide_eq_true hall)]
      rfl
    · rw [if_neg hall, if_neg (by simpa [selects] using hall)]
      rfl
  · show (s.equalSp ++ _).map _ = recordsOf (s.triples ++ [t]) .equalSp
    rw [recordsOf_append, List.map_append, h.equalSp]
    by_cases heq : t.1 = t.2.1 <;> simp [selects, recordOf, tuple2, heq]
  · show (s.equalSo ++ _).map _ = recordsOf (s.triples ++ [t]) .equalSo
    rw [recordsOf_append, List.map_append, h.equalSo]
    by_cases heq : t.1 = t.2.2 <;> simp [selects, recordOf, tuple2, heq]
  · show (s.equalPo ++ _).map _ = recordsOf (s.triples ++ [t]) .equalPo
    rw [recordsOf_append, List.map_append, h.equalPo]
    by_cases heq : t.2.1 = t.2.2 <;> simp [selects, recordOf, tuple2, heq]
  · intro u hu
    rcases List.mem_append.mp hu with hu | hu
    · exact h.ne_zero u hu
    · rw [List.mem_singleton.mp hu]
      exact ht

theorem Filed.onStatement (h : Filed s) (hstep : onStatement env s statement = .ok s') :
    Filed s' := by
  rcases onStatement_cases hstep with ⟨ids, -, rfl⟩ | ⟨triple, ids, htriple, rfl⟩
  · exact ⟨h.equalSpo, h.equalSp, h.equalSo, h.equalPo, h.ne_zero⟩
  · exact h.saveTriple (tripleOf_ne_zero htriple) ids

theorem readStatements_nil : readStatements env s [] = .ok s' ↔ s = s' :=
  ⟨Except.ok.inj, congrArg Except.ok⟩

theorem readStatements_cons : readStatements env s (statement :: statements) = .ok s' ↔
    ∃ mid, onStatement env s statement = .ok mid ∧ readStatements env mid statements = .ok s' := by
  rw [readStatements, List.foldlM_cons]
  constructor
  · exact fun h => by
      cases hstep : ImportRdf.onStatement env s statement with
      | error e =>
        rw [hstep] at h
        cases h
      | ok mid =>
        rw [hstep] at h
        exact ⟨mid, rfl, h⟩
  · intro ⟨mid, hstep, h⟩
    rw [hstep]
    exact h

theorem Filed.readStatements (h : Filed s)
    (hread : readStatements env s statements = .ok s') : Filed s' := by
  induction statements generalizing s with
  | nil => rwa [← readStatements_nil.mp hread]
  | cons statement statements ih =>
    obtain ⟨mid, hstep, hread⟩ := readStatements_cons.mp hread
    exact ih (h.onStatement hstep) hread

theorem repeatsNothing_cons {mid : OnDiskImport} (hmid : onStatement env s statement = .ok mid) :
    RepeatsNothing env s (statement :: statements) ↔
      (∀ triple ids, tripleOf env statement s.ids = .ok (some triple, ids) → triple ∉ s.triples) ∧
        RepeatsNothing env mid statements := by
  constructor
  · intro h
    refine ⟨h [] statement statements s rfl (readStatements_nil.mpr rfl), ?_⟩
    intro read statement' rest last heq hread
    exact h (statement :: read) statement' rest last (congrArg _ heq)
      (readStatements_cons.mpr ⟨mid, hmid, hread⟩)
  · intro ⟨hnew, h⟩ read statement' rest last heq hread
    cases read with
    | nil =>
      obtain rfl := readStatements_nil.mp hread
      rwa [← (List.cons.inj heq).1]
    | cons head read =>
      obtain ⟨rfl, hrest⟩ := List.cons.inj heq
      obtain ⟨mid', hmid', hread⟩ := readStatements_cons.mp hread
      obtain rfl := Except.ok.inj (hmid.symm.trans hmid')
      exact h read statement' rest last hrest hread

theorem nodup_readStatements_iff (hread : readStatements env s statements = .ok s') :
    s'.triples.Nodup ↔ s.triples.Nodup ∧ RepeatsNothing env s statements := by
  induction statements generalizing s with
  | nil =>
    rw [readStatements_nil.mp hread]
    refine (and_iff_left ?_).symm
    intro read statement rest mid heq
    cases read <;> cases heq
  | cons statement statements ih =>
    obtain ⟨mid, hstep, hread⟩ := readStatements_cons.mp hread
    have hnodup : mid.triples.Nodup ↔ s.triples.Nodup ∧ ∀ triple ids,
        tripleOf env statement s.ids = .ok (some triple, ids) → triple ∉ s.triples := by
      rcases onStatement_cases hstep with ⟨ids, htriple, rfl⟩ | ⟨triple, ids, htriple, rfl⟩
      · rw [htriple]
        simp
      · rw [htriple]
        show (s.triples ++ [triple]).Nodup ↔ _
        rw [List.nodup_append_comm, List.singleton_append, List.nodup_cons, and_comm]
        simp
    rw [ih hread, hnodup, repeatsNothing_cons hstep, and_assoc]

end

def width : Index → Nat
  | .spo | .pos | .osp | .pso => 3
  | .equalSpo => 1
  | _ => 2

def run (triples : List Triple) (i : Index) : List Tuple := DiskVector.sort (recordsOf triples i)

structure Writes (s : OnDiskImport) (imported : Imported) : Prop where
  tree : ∀ i, DiskVector.Loaded (width i) (run s.triples i) (imported.tree i)
  triplesCount : imported.catalog.triplesCount = s.triples.length
  distinctSubjects : imported.catalog.distinctSubjects =
    ((run s.triples .spo).foldl Import.DistinctStat.processTuple Import.DistinctStat.start).distinct
  distinctPredicates : imported.catalog.distinctPredicates = ((run s.triples .pos).foldl
    Import.PredicateStat.processTuple Import.PredicateStat.start).distinctValues
  distinctObjects : imported.catalog.distinctObjects =
    ((run s.triples .osp).foldl Import.DistinctStat.processTuple Import.DistinctStat.start).distinct
  predicate2totalCount : imported.catalog.predicate2totalCount = Import.PredicateStat.finish
    ((run s.triples .pos).foldl Import.PredicateStat.processTuple Import.PredicateStat.start)

section

variable {s : OnDiskImport}

theorem Filed.inverted (h : Filed s) :
    (s.equalSp.map fun r => [r.2, r.1]) = recordsOf s.triples .equalSpInverted ∧
      (s.equalSo.map fun r => [r.2, r.1]) = recordsOf s.triples .equalSoInverted ∧
      (s.equalPo.map fun r => [r.2, r.1]) = recordsOf s.triples .equalPoInverted := by
  have hreverse (l : List (Nat × Nat)) :
      (l.map fun r => [r.2, r.1]) = (l.map tuple2).map List.reverse := by
    rw [List.map_map]
    rfl
  refine ⟨?_, ?_, ?_⟩
  · rw [hreverse, h.equalSp, recordsOf, List.map_map]
    rfl
  · rw [hreverse, h.equalSo, recordsOf, List.map_map]
    rfl
  · rw [hreverse, h.equalPo, recordsOf, List.map_map]
    rfl

theorem map_triples (i : Index) (hi : selects i = fun _ => true) (triples : List Triple) :
    recordsOf triples i = triples.map (recordOf i) := by
  rw [recordsOf, hi, List.filter_true]

theorem startImport_ok {bufferSizeInGB : Nat} {imported : Imported} (hfiled : Filed s)
    (h : startImport bufferSizeInGB s = .ok imported) : Writes s imported := by
  obtain ⟨⟨spo, v₁⟩, hspo, h⟩ := bind_eq_ok h
  obtain ⟨⟨pos, v₂⟩, hpos, h⟩ := bind_eq_ok h
  obtain ⟨⟨osp, v₃⟩, hosp, h⟩ := bind_eq_ok h
  obtain ⟨⟨pso, _⟩, hpso, h⟩ := bind_eq_ok h
  obtain ⟨⟨equalSpo, _⟩, hequalSpo, h⟩ := bind_eq_ok h
  obtain ⟨⟨equalSp, equalSpInverted⟩, hequalSp, h⟩ := bind_eq_ok h
  obtain ⟨⟨equalSo, equalSoInverted⟩, hequalSo, h⟩ := bind_eq_ok h
  obtain ⟨⟨equalPo, equalPoInverted⟩, hequalPo, h⟩ := bind_eq_ok h
  cases h
  let bufferSize := 1024 * 1024 * 1024 * bufferSizeInGB
  have hv2 : ∀ rs : List (Nat × Nat), DiskVector.Collected 2 [0, 1] (rs.map tuple2)
      ((vectorOf (rs.map tuple2)).startIndexing 2 bufferSize [0, 1]) := fun rs =>
    collected_vectorOf bufferSize (by decide) rfl (length_tuples (f := tuple2) (fun _ => rfl) rs)
  have hv3 : DiskVector.Collected 3 [0, 1, 2] (s.triples.map tuple3)
      ((vectorOf (s.triples.map tuple3)).startIndexing 3 bufferSize [0, 1, 2]) :=
    collected_vectorOf bufferSize (by decide) rfl (length_tuples (f := tuple3) (fun _ => rfl) _)
  have hv1 : DiskVector.Collected 1 [0] (s.equalSpo.map ([·]))
      ((vectorOf (s.equalSpo.map ([·]))).startIndexing 1 bufferSize [0]) :=
    collected_vectorOf bufferSize (by decide) rfl (length_tuples (f := ([·])) (fun _ => rfl) _)
  obtain ⟨hv₁, hcurrent₁, hspo, hspoStat⟩ :=
    hv3.createBpt (by decide) (by decide) (.refl _) hspo
  obtain ⟨hv₂, hcurrent₂, hpos, hposStat⟩ := hv₁.createBpt (by decide) (by decide)
    (hcurrent₁ ▸ show List.Perm [1, 2, 0] [0, 1, 2] by decide) hpos
  obtain ⟨hv₃, hcurrent₃, hosp, hospStat⟩ := hv₂.createBpt (by decide) (by decide)
    (by rw [hcurrent₂]; decide) hosp
  obtain ⟨-, -, hpso, -⟩ := hv₃.createBpt (by decide) (by decide)
    (by rw [hcurrent₃]; decide) hpso
  obtain ⟨-, -, hequalSpo, -⟩ := hv1.createBpt (by decide) (by decide) (.refl _) hequalSpo
  obtain ⟨⟨hequalSp, -⟩, hequalSpInverted, -⟩ := createTwoBpts_ok (hv2 _) (by decide)
    (by decide) (.refl _) (.swap _ _ _) hequalSp
  obtain ⟨⟨hequalSo, -⟩, hequalSoInverted, -⟩ := createTwoBpts_ok (hv2 _) (by decide)
    (by decide) (.refl _) (.swap _ _ _) hequalSo
  obtain ⟨⟨hequalPo, -⟩, hequalPoInverted, -⟩ := createTwoBpts_ok (hv2 _) (by decide)
    (by decide) (.refl _) (.swap _ _ _) hequalPo
  rw [List.map_map] at hspo hspoStat hpos hposStat hosp hospStat hpso hequalSpo
  rw [List.map_map] at hequalSp hequalSpInverted hequalSo hequalSoInverted hequalPo
  rw [List.map_map] at hequalPoInverted
  obtain ⟨hspInverted, hsoInverted, hpoInverted⟩ := hfiled.inverted
  constructor
  · intro i
    rw [run]
    cases i with
    | spo => rw [map_triples _ rfl]; exact hspo
    | pos => rw [map_triples _ rfl]; exact hpos
    | osp => rw [map_triples _ rfl]; exact hosp
    | pso => rw [map_triples _ rfl]; exact hpso
    | equalSpo => rw [← hfiled.equalSpo]; exact hequalSpo
    | equalSp => rw [← hfiled.equalSp]; exact hequalSp
    | equalSo => rw [← hfiled.equalSo]; exact hequalSo
    | equalPo => rw [← hfiled.equalPo]; exact hequalPo
    | equalSpInverted => rw [← hspInverted]; exact hequalSpInverted
    | equalSoInverted => rw [← hsoInverted]; exact hequalSoInverted
    | equalPoInverted => rw [← hpoInverted]; exact hequalPoInverted
  · exact congrArg List.length (Import.file_vectorOf _) |>.trans (List.length_map _)
  · rw [run, map_triples _ rfl]
    exact congrArg Import.DistinctStat.distinct hspoStat
  · rw [run, map_triples _ rfl]
    exact congrArg Import.PredicateStat.distinctValues hposStat
  · rw [run, map_triples _ rfl]
    exact congrArg Import.DistinctStat.distinct hospStat
  · rw [run, map_triples _ rfl]
    exact congrArg Import.PredicateStat.finish hposStat

end

def Imported.records (imported : Imported) (i : Index) : List Tuple :=
  (imported.tree i).leaf.flatMap LeafPage.records

structure Indexes (triples : Finset Triple) (imported : Imported) : Prop where
  ordered : ∀ i, (imported.records i).Pairwise (· < ·)
  mem : ∀ i record, record ∈ imported.records i ↔
    ∃ triple ∈ triples, selects i triple = true ∧ recordOf i triple = record
  triplesCount : imported.catalog.triplesCount = triples.card
  distinctSubjects : imported.catalog.distinctSubjects = (triples.image fun t => t.1).card
  distinctPredicates : imported.catalog.distinctPredicates = (triples.image fun t => t.2.1).card
  distinctObjects : imported.catalog.distinctObjects = (triples.image fun t => t.2.2).card
  predicate2totalCount : ∀ predicateId ≠ 0, imported.catalog.predicate2totalCount.get predicateId =
    (triples.filter fun t => t.2.1 = predicateId).card

section

variable {s : OnDiskImport} {imported : Imported} {triples : List Triple}

theorem recordOf_injOn (i : Index) {t u : Triple} (ht : selects i t = true)
    (hu : selects i u = true) (h : recordOf i t = recordOf i u) : t = u := by
  obtain ⟨s, p, o⟩ := t
  obtain ⟨s', p', o'⟩ := u
  cases i <;> simp_all [recordOf, selects]

theorem nodup_recordsOf (h : triples.Nodup) (i : Index) : (recordsOf triples i).Nodup := by
  apply List.Nodup.map_on
  · intro t ht u hu heq
    exact recordOf_injOn i (List.mem_filter.mp ht).2 (List.mem_filter.mp hu).2 heq
  · exact h.filter _

theorem perm_run (triples : List Triple) (i : Index) :
    (run triples i).Perm (recordsOf triples i) := DiskVector.perm_sort _

theorem mem_run {i : Index} {record : Tuple} : record ∈ run triples i ↔
    ∃ triple ∈ triples.toFinset, selects i triple = true ∧ recordOf i triple = record := by
  rw [(perm_run triples i).mem_iff, recordsOf, List.mem_map]
  simp [and_assoc]

theorem card_column {i : Index} (hi : selects i = fun _ => true) {position : Triple → Nat}
    (hposition : ∀ t, column 0 (recordOf i t) = position t) (hne : ∀ t ∈ triples, position t ≠ 0) :
    (((run triples i).map (column 0)).toFinset.erase 0).card =
      (triples.toFinset.image position).card := by
  congr 1
  ext id
  have hmem : id ∈ (run triples i).map (column 0) ↔ ∃ t ∈ triples, position t = id := by
    rw [((perm_run triples i).map _).mem_iff, map_triples i hi, List.map_map, List.mem_map]
    simp [hposition]
  rw [Finset.mem_erase, List.mem_toFinset, hmem, Finset.mem_image]
  simp only [List.mem_toFinset]
  constructor
  · exact And.right
  · intro ⟨t, ht, heq⟩
    exact ⟨heq ▸ hne t ht, t, ht, heq⟩

theorem Writes.indexes (h : Writes s imported) (hfiled : Filed s) (hnodup : s.triples.Nodup) :
    Indexes s.triples.toFinset imported := by
  have hsorted : ∀ i, (run s.triples i).Pairwise (· ≤ ·) := fun i => DiskVector.pairwise_sort _
  have hrecords : ∀ i, imported.records i = run s.triples i := fun i => (h.tree i).concat
  constructor
  · intro i
    rw [hrecords, run, Import.pairwise_lt_sort]
    exact nodup_recordsOf hnodup i
  · intro i record
    rw [hrecords]
    exact mem_run
  · rw [h.triplesCount, List.toFinset_card_of_nodup hnodup]
  · rw [h.distinctSubjects, Import.DistinctStat.distinct_foldl (hsorted .spo)]
    exact card_column rfl (fun _ => rfl) fun t ht => (hfiled.ne_zero t ht).1
  · rw [h.distinctPredicates, Import.PredicateStat.distinctValues_foldl (hsorted .pos)]
    exact card_column rfl (fun _ => rfl) fun t ht => (hfiled.ne_zero t ht).2.1
  · rw [h.distinctObjects, Import.DistinctStat.distinct_foldl (hsorted .osp)]
    exact card_column rfl (fun _ => rfl) fun t ht => (hfiled.ne_zero t ht).2.2
  · intro predicateId hne
    rw [h.predicate2totalCount, Import.PredicateStat.get_finish (hsorted .pos) hne]
    rw [((perm_run s.triples .pos).map _).count_eq, map_triples .pos rfl, List.map_map]
    show (s.triples.map fun t => t.2.1).count predicateId = _
    rw [List.count_eq_length_filter, List.filter_map, List.length_map,
      ← List.toFinset_card_of_nodup (hnodup.filter _), List.toFinset_filter]
    congr 1
    ext t
    simp

/-- The import of a file indexes the set of its triples exactly if no statement gives a triple
that an earlier one gave. -/
theorem indexes_iff (env : Environment) (statements : List Statement) (bufferSizeInGB : Nat)
    (hread : readStatements env (.start env.hash) statements = .ok s)
    (himport : startImport bufferSizeInGB s = .ok imported) :
    Indexes s.triples.toFinset imported ↔ RepeatsNothing env (.start env.hash) statements := by
  have hfiled := (filed_start _).readStatements hread
  have hwrites := startImport_ok hfiled himport
  have hnodup := nodup_readStatements_iff hread
  rw [and_iff_right (by exact List.nodup_nil)] at hnodup
  rw [← hnodup]
  constructor
  · intro h
    have hspo := h.ordered .spo
    rw [Imported.records, (hwrites.tree .spo).concat, run, Import.pairwise_lt_sort,
      map_triples _ rfl] at hspo
    exact hspo.of_map _
  · exact hwrites.indexes hfiled

end

def uri (str : Bytes) : SerdNode := ⟨.uri, str⟩

def uris (s p o : Bytes) : Statement := ⟨uri s, uri p, uri o, none, none⟩

def plain : Environment := ⟨[], id, fun _ => 0⟩

def importing {α : Type} (f : OnDiskImport → Imported → α) (statements : List Statement) :
    Option (Except Failure α) :=
  (readStatements plain (.start plain.hash) statements).toOption.map fun s =>
    (startImport 1 s).map (f s)

theorem exists_imported {α : Type} {f : OnDiskImport → Imported → α}
    {statements : List Statement} {value : α} (h : importing f statements = some (.ok value)) :
    ∃ s imported, readStatements plain (.start plain.hash) statements = .ok s ∧
      startImport 1 s = .ok imported ∧ f s imported = value := by
  rw [importing] at h
  cases hread : readStatements plain (.start plain.hash) statements with
  | error e =>
    rw [hread] at h
    cases h
  | ok s =>
    rw [hread] at h
    replace h : (startImport 1 s).map (f s) = .ok value := Option.some.inj h
    cases himport : startImport 1 s with
    | error e =>
      rw [himport] at h
      cases h
    | ok imported =>
      rw [himport] at h
      exact ⟨s, imported, rfl, himport, Except.ok.inj h⟩

def triplesOf (_ : OnDiskImport) (imported : Imported) : List Tuple := imported.records .spo

def letterIri (letter : Nat) : Nat := letter <<< 40 ||| ObjectId.maskIriInlined

theorem indexes_twoTriples : ∃ s imported,
    readStatements plain (.start plain.hash) [uris [65] [66] [67], uris [65] [66] [68]] = .ok s ∧
      startImport 1 s = .ok imported ∧ (Indexes s.triples.toFinset imported ↔
        RepeatsNothing plain (.start plain.hash) [uris [65] [66] [67], uris [65] [66] [68]]) := by
  obtain ⟨s, imported, hread, himport, -⟩ := exists_imported
    (show importing triplesOf [uris [65] [66] [67], uris [65] [66] [68]] =
      some (.ok [[letterIri 65, letterIri 66, letterIri 67],
        [letterIri 65, letterIri 66, letterIri 68]]) by decide +kernel)
  exact ⟨s, imported, hread, himport, indexes_iff plain _ 1 hread himport⟩

/-- A statement that comes twice is in the tree twice. -/
theorem not_indexes : ¬ ∀ (statements : List Statement) (s : OnDiskImport) (imported : Imported),
    readStatements plain (.start plain.hash) statements = .ok s → startImport 1 s = .ok imported →
      Indexes s.triples.toFinset imported := by
  intro h
  obtain ⟨s, imported, hread, himport, hrecords⟩ := exists_imported
    (show importing triplesOf [uris [65] [66] [67], uris [65] [66] [67]] =
      some (.ok [[letterIri 65, letterIri 66, letterIri 67],
        [letterIri 65, letterIri 66, letterIri 67]]) by decide +kernel)
  have hspo := (h _ s imported hread himport).ordered .spo
  rw [triplesOf] at hrecords
  rw [hrecords] at hspo
  exact absurd hspo (by decide)

end ImportRdf
end MillenniumDB
