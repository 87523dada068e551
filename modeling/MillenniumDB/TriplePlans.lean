import MillenniumDB.IndexScans
import MillenniumDB.RdfIndexes

/-!
# `TriplePlan`

`get_binding_id_iter` scans the tree in which the positions that are bound come first, and the
trees of equal positions for a repeated term.  `get_leapfrog_iter` takes a tree whose columns are
the bound positions, then the variables that are intersected and then the others.
-/

namespace MillenniumDB
namespace TriplePlans

open ImportRdf (Triple Imported Indexes selects recordOf)
open Scans

inductive Field
  | subject
  | predicate
  | object
  deriving DecidableEq

def field : Field → Triple → Nat
  | .subject, t => t.1
  | .predicate, t => t.2.1
  | .object, t => t.2.2

structure TriplePlan where
  subject : Id
  predicate : Id
  object : Id
  subjectAssigned : Bool
  predicateAssigned : Bool
  objectAssigned : Bool

namespace TriplePlan

def new (subject predicate object : Id) : TriplePlan :=
  ⟨subject, predicate, object, holdsObject subject, holdsObject predicate, holdsObject object⟩

def setInputVars (inputVars : List Nat) (p : TriplePlan) : TriplePlan :=
  { p with
    subjectAssigned := setInputVar inputVars p.subjectAssigned p.subject
    predicateAssigned := setInputVar inputVars p.predicateAssigned p.predicate
    objectAssigned := setInputVar inputVars p.objectAssigned p.object }

def planned (subject predicate object : Id) (inputs : List (List Nat)) : TriplePlan :=
  inputs.foldl (fun p inputVars => p.setInputVars inputVars) (new subject predicate object)

/-- `get_binding_id_iter` over the trees of the graph. -/
def getBindingIdIter (tree : ImportRdf.Index → List Tuple) (p : TriplePlan) : IndexScan :=
  let subject := ScanRange.get p.subject p.subjectAssigned
  let predicate := ScanRange.get p.predicate p.predicateAssigned
  let object := ScanRange.get p.object p.objectAssigned
  if p.subject = p.predicate then
    if p.subject = p.object then ⟨tree .equalSpo, [subject]⟩
    else if p.objectAssigned then ⟨tree .equalSpInverted, [object, subject]⟩
    else ⟨tree .equalSp, [subject, object]⟩
  else if p.subject = p.object then
    if p.predicateAssigned then ⟨tree .equalSoInverted, [predicate, subject]⟩
    else ⟨tree .equalSo, [subject, predicate]⟩
  else if p.predicate = p.object then
    if p.subjectAssigned then ⟨tree .equalPoInverted, [subject, predicate]⟩
    else ⟨tree .equalPo, [predicate, subject]⟩
  else if p.subjectAssigned then
    if p.predicateAssigned then ⟨tree .spo, [subject, predicate, object]⟩
    else if p.objectAssigned then ⟨tree .osp, [object, subject, predicate]⟩
    else ⟨tree .spo, [subject, predicate, object]⟩
  else if p.predicateAssigned then ⟨tree .pos, [predicate, object, subject]⟩
  else if p.objectAssigned then ⟨tree .osp, [object, subject, predicate]⟩
  else ⟨tree .spo, [subject, predicate, object]⟩

end TriplePlan

def int32Max : Int := 2 ^ 31 - 1

/-- `LeapfrogBptIter<3>`. -/
structure LeapfrogBptIter where
  bpt : ImportRdf.Index
  initialRanges : List ScanRange
  intersectionVars : List Nat
  enumerationVars : List Nat

def assignIndex (id : Id) (flag : Bool) : Int := if holdsObject id ∨ flag then -1 else int32Max

/-- The loop over the intersection variables, for one of the three indexes. -/
def searchIndex (varOrder : List Nat) (enumerationLevel : Nat) (id : Id) (index : Int) : Int :=
  (List.range enumerationLevel).foldl (fun (index : Int) (i : Nat) =>
    if index = int32Max ∧ varOrder[i]?.map Id.var = some id then (i : Int) else index) index

namespace LeapfrogBptIter

/-- `assign`. -/
def push (index : Int) (id : Id) (it : LeapfrogBptIter) : LeapfrogBptIter :=
  if index = -1 then { it with initialRanges := it.initialRanges ++ [ScanRange.get id true] }
  else
    match id with
    | .object _ => it
    | .var v =>
      if index = int32Max then { it with enumerationVars := it.enumerationVars ++ [v] }
      else { it with intersectionVars := it.intersectionVars ++ [v] }

end LeapfrogBptIter

namespace TriplePlan

/-- `get_leapfrog_iter`; `none` when it returns false. -/
def getLeapfrogIter (varOrder : List Nat) (enumerationLevel : Nat) (p : TriplePlan) :
    Option LeapfrogBptIter :=
  if (holdsObject p.subject = false ∧ p.subject = p.predicate) ∨
      (holdsObject p.subject = false ∧ p.subject = p.object) ∨
      (holdsObject p.predicate = false ∧ p.predicate = p.object) then none
  else
    let search := searchIndex varOrder enumerationLevel
    let subjectIndex := search p.subject (assignIndex p.subject p.subjectAssigned)
    let predicateIndex := search p.predicate (assignIndex p.predicate p.predicateAssigned)
    let objectIndex := search p.object (assignIndex p.object p.objectAssigned)
    let subject := LeapfrogBptIter.push subjectIndex p.subject
    let predicate := LeapfrogBptIter.push predicateIndex p.predicate
    let object := LeapfrogBptIter.push objectIndex p.object
    if predicateIndex ≤ objectIndex ∧ objectIndex ≤ subjectIndex then
      some (subject (object (predicate ⟨.pos, [], [], []⟩)))
    else if predicateIndex ≤ subjectIndex ∧ subjectIndex ≤ objectIndex then
      some (object (subject (predicate ⟨.pso, [], [], []⟩)))
    else if subjectIndex ≤ predicateIndex ∧ predicateIndex ≤ objectIndex then
      some (object (predicate (subject ⟨.spo, [], [], []⟩)))
    else if objectIndex ≤ subjectIndex ∧ subjectIndex ≤ predicateIndex then
      some (predicate (subject (object ⟨.osp, [], [], []⟩)))
    else none

def pattern (subject predicate object : Id) : Field → Id
  | .subject => subject
  | .predicate => predicate
  | .object => object

end TriplePlan

structure HoldsTriples (triples : Finset Triple) (tree : ImportRdf.Index → List Tuple) : Prop where
  ordered : ∀ i, (tree i).Pairwise (· < ·)
  mem : ∀ i record, record ∈ tree i ↔
    ∃ triple ∈ triples, selects i triple = true ∧ recordOf i triple = record
  small : ∀ t ∈ triples, ∀ f, field f t < 2 ^ 64

def columnsOf : ImportRdf.Index → List Field
  | .spo => [.subject, .predicate, .object]
  | .pos => [.predicate, .object, .subject]
  | .osp => [.object, .subject, .predicate]
  | .pso => [.predicate, .subject, .object]
  | .equalSpo => [.subject]
  | .equalSp => [.subject, .object]
  | .equalSo => [.subject, .predicate]
  | .equalPo => [.predicate, .subject]
  | .equalSpInverted => [.object, .subject]
  | .equalSoInverted => [.predicate, .subject]
  | .equalPoInverted => [.subject, .predicate]

def ScanRight (triples : Finset Triple) (tree : ImportRdf.Index → List Tuple) (subject predicate object : Id)
    (inputs : List (List Nat)) (b : Binding) : Prop :=
  ∃ rows, Yields ((TriplePlan.planned subject predicate object inputs).getBindingIdIter tree).next
      (((TriplePlan.planned subject predicate object inputs).getBindingIdIter tree).begin b) rows ∧
    Returns field (TriplePlan.pattern subject predicate object) inputs.flatten triples b rows

/-- The ranges of all columns: the variables are assigned in order after the initial ranges. -/
def LeapfrogBptIter.ranges (it : LeapfrogBptIter) : List ScanRange :=
  it.initialRanges ++ (it.intersectionVars ++ it.enumerationVars).map .unassignedVar

/-- The terms that the records behind the initial ranges give to the positions. -/
def LeapfrogBptIter.denotes (tree : ImportRdf.Index → List Tuple) (pattern : Field → Id) (b : Binding)
    (it : LeapfrogBptIter) : Set (Field → Nat) :=
  {fields | ∃ r ∈ tree it.bpt, it.initialRanges.map (·.getMin b) <+: r ∧
    fields = fun f => value (assign it.ranges r b) (pattern f)}

/-- The columns of the tree are the bound terms, then the intersection variables in their order,
then the variables that are enumerated, and the records denote the triples that match. -/
structure LeapfrogRight (triples : Finset Triple) (tree : ImportRdf.Index → List Tuple) (pattern : Field → Id)
    (inputs varOrder : List Nat) (enumerationLevel : Nat) (b : Binding) (it : LeapfrogBptIter) :
    Prop where
  columns : ∃ known free : List Field, columnsOf it.bpt = known ++ free ∧
    (∀ f ∈ known, assigned inputs (pattern f) = true) ∧
    it.initialRanges = known.map (fun f => ScanRange.get (pattern f) true) ∧
    (∀ f ∈ free, assigned inputs (pattern f) = false) ∧
    free.map pattern = (it.intersectionVars ++ it.enumerationVars).map Id.var
  intersection : ∀ v ∈ it.intersectionVars, v ∈ varOrder.take enumerationLevel
  ordered : it.intersectionVars.Pairwise fun v w => varOrder.idxOf v < varOrder.idxOf w
  enumeration : ∀ v ∈ it.enumerationVars, v ∉ varOrder.take enumerationLevel
  denotes : it.denotes tree pattern b =
    {fields | ∃ t ∈ triples, (fun f => field f t) = fields ∧ Matches field pattern inputs b t}

namespace TriplePlan

def bound (subject predicate object : Id) (vars : List Nat) : TriplePlan :=
  ⟨subject, predicate, object, assigned vars subject, assigned vars predicate, assigned vars object⟩

theorem planned_eq_bound (subject predicate object : Id) (inputs : List (List Nat)) :
    planned subject predicate object inputs = bound subject predicate object inputs.flatten := by
  have hnew : new subject predicate object = bound subject predicate object [] := by
    cases subject <;> cases predicate <;> cases object <;> rfl
  rw [planned, hnew, foldl_set_eq, List.nil_append]
  intro vars vars'
  simp only [bound, setInputVars, setInputVar_assigned]

end TriplePlan

section

variable {triples : Finset Triple} {tree : ImportRdf.Index → List Tuple} {subject predicate object : Id}
  {vars : List Nat} {b : Binding}

theorem recordOf_eq (i : ImportRdf.Index) (t : Triple) : recordOf i t = (columnsOf i).map (field · t) := by
  cases i <;> rfl

theorem HoldsTriples.holds (h : HoldsTriples triples tree) (i : ImportRdf.Index) :
    Holds field (triples : Set Triple) (selects i · = true) (columnsOf i) (tree i) where
  ordered := h.ordered i
  mem r := by
    rw [h.mem]
    simp only [recordOf_eq, Finset.mem_coe]

theorem HoldsTriples.scan (h : HoldsTriples triples tree) (i : ImportRdf.Index) (pattern : Field → Id)
    (hfirst : (columnsOf i).Pairwise fun f g =>
      assigned vars (pattern g) = true → assigned vars (pattern f) = true)
    (hselects : ∀ t, (∀ f g, pattern f = pattern g → field f t = field g t) → selects i t = true)
    (hcover : ∀ f, ∃ g ∈ columnsOf i, pattern f = pattern g ∧
      ∀ t, selects i t = true → field f t = field g t)
    (hdistinct : ∀ f ∈ columnsOf i, ∀ g ∈ columnsOf i, pattern f = pattern g → f = g) :
    ∃ rows, Yields (scanOf pattern vars (columnsOf i) (tree i)).next
        ((scanOf pattern vars (columnsOf i) (tree i)).begin b) rows ∧
      Returns field pattern vars triples b rows := by
  refine returns_of_columns (h.holds i) hfirst h.small hselects (fun t ht f => ?_)
    fun t _ _ f hf g hg _ heq => ?_
  · obtain ⟨g, hg, hpattern, hfield⟩ := hcover f
    exact ⟨g, hg, hpattern, hfield t ht⟩
  · rw [hdistinct f hf g hg heq]

theorem HoldsTriples.scanEqual (h : HoldsTriples triples tree) (i : ImportRdf.Index)
    (pattern : Field → Id) (f g other : Field)
    (hcolumns : columnsOf i = [f, other] ∨ columnsOf i = [other, f])
    (hfirst : (columnsOf i).Pairwise fun f g =>
      assigned vars (pattern g) = true → assigned vars (pattern f) = true)
    (hselects : ∀ t, selects i t = true ↔ field g t = field f t) (hequal : pattern g = pattern f)
    (hother : pattern other ≠ pattern f) (hfields : ∀ k, k = f ∨ k = g ∨ k = other) :
    ∃ rows, Yields (scanOf pattern vars (columnsOf i) (tree i)).next
        ((scanOf pattern vars (columnsOf i) (tree i)).begin b) rows ∧
      Returns field pattern vars triples b rows := by
  have hmem : ∀ k, k ∈ columnsOf i ↔ k = f ∨ k = other := by
    intro k
    rcases hcolumns with hcolumns | hcolumns
    · simp [hcolumns]
    · simp [hcolumns, or_comm]
  apply h.scan i pattern hfirst
  · intro t ht
    exact (hselects t).mpr (ht g f hequal)
  · intro k
    rcases hfields k with hk | hk | hk
    · exact ⟨f, (hmem f).mpr (.inl rfl), by rw [hk], fun t _ => by rw [hk]⟩
    · exact ⟨f, (hmem f).mpr (.inl rfl), by rw [hk, hequal], fun t ht => by rw [hk, (hselects t).mp ht]⟩
    · exact ⟨other, (hmem other).mpr (.inr rfl), by rw [hk], fun t _ => by rw [hk]⟩
  · intro k hk l hl heq
    rcases (hmem k).mp hk with rfl | rfl <;> rcases (hmem l).mp hl with rfl | rfl
    · rfl
    · exact absurd heq.symm hother
    · exact absurd heq hother
    · rfl

theorem HoldsTriples.scanAll (h : HoldsTriples triples tree) (i : ImportRdf.Index)
    (pattern : Field → Id) (hall : ∀ f, f ∈ columnsOf i)
    (hfirst : (columnsOf i).Pairwise fun f g =>
      assigned vars (pattern g) = true → assigned vars (pattern f) = true)
    (hselects : ∀ t, selects i t = true) (hpattern : Function.Injective pattern) :
    ∃ rows, Yields (scanOf pattern vars (columnsOf i) (tree i)).next
        ((scanOf pattern vars (columnsOf i) (tree i)).begin b) rows ∧
      Returns field pattern vars triples b rows := by
  apply h.scan i pattern hfirst
  · exact fun t _ => hselects t
  · exact fun f => ⟨f, hall f, rfl, fun _ _ => rfl⟩
  · exact fun f _ g _ heq => hpattern heq

def scanned (subject predicate object : Id)
    (subjectAssigned predicateAssigned objectAssigned : Bool) : ImportRdf.Index :=
  if subject = predicate then
    if subject = object then .equalSpo
    else if objectAssigned then .equalSpInverted else .equalSp
  else if subject = object then if predicateAssigned then .equalSoInverted else .equalSo
  else if predicate = object then if subjectAssigned then .equalPoInverted else .equalPo
  else if subjectAssigned then
    if predicateAssigned then .spo else if objectAssigned then .osp else .spo
  else if predicateAssigned then .pos
  else if objectAssigned then .osp else .spo

theorem getBindingIdIter_eq (p : TriplePlan) (pattern : Field → Id)
    (hsubject : ScanRange.get p.subject p.subjectAssigned =
      ScanRange.get (pattern .subject) (assigned vars (pattern .subject)))
    (hpredicate : ScanRange.get p.predicate p.predicateAssigned =
      ScanRange.get (pattern .predicate) (assigned vars (pattern .predicate)))
    (hobject : ScanRange.get p.object p.objectAssigned =
      ScanRange.get (pattern .object) (assigned vars (pattern .object))) :
    p.getBindingIdIter tree = scanOf pattern vars
      (columnsOf (scanned p.subject p.predicate p.object p.subjectAssigned p.predicateAssigned
        p.objectAssigned))
      (tree (scanned p.subject p.predicate p.object p.subjectAssigned p.predicateAssigned
        p.objectAssigned)) := by
  obtain ⟨scan, hscan⟩ : ∃ scan : ImportRdf.Index → IndexScan, ∀ i, scan i =
      scanOf pattern vars (columnsOf i) (tree i) := ⟨_, fun _ => rfl⟩
  rw [← hscan]
  simp only [scanned, apply_ite scan, TriplePlan.getBindingIdIter]
  rw [hsubject, hpredicate, hobject]
  simp only [hscan]
  rfl

theorem scanRight (h : HoldsTriples triples tree) (inputs : List (List Nat)) :
    ScanRight triples tree subject predicate object inputs b := by
  rw [ScanRight, TriplePlan.planned_eq_bound]
  generalize inputs.flatten = vars
  have hfields : ∀ f g other : Field, f ≠ g → f ≠ other → g ≠ other →
      ∀ k, k = f ∨ k = g ∨ k = other := by
    intro f g other
    cases f <;> cases g <;> cases other <;> simp <;> intro k <;> cases k <;> simp
  rw [getBindingIdIter_eq _ (TriplePlan.pattern subject predicate object) rfl rfl rfl]
  simp only [TriplePlan.bound]
  generalize hscanned : scanned subject predicate object (assigned vars subject)
    (assigned vars predicate) (assigned vars object) = i
  unfold scanned at hscanned
  by_cases hsp : subject = predicate
  · subst hsp
    by_cases hso : subject = object
    · subst hso
      rw [if_pos rfl, if_pos rfl] at hscanned
      subst hscanned
      apply h.scan .equalSpo (TriplePlan.pattern subject subject subject)
      · simp [columnsOf]
      · intro t ht
        have hfirst : t.1 = t.2.1 := ht .subject .predicate rfl
        have hlast : t.1 = t.2.2 := ht .subject .object rfl
        exact decide_eq_true ⟨hfirst, hlast⟩
      · intro f
        refine ⟨.subject, by simp [columnsOf], by cases f <;> rfl, fun t ht => ?_⟩
        obtain ⟨hfirst, hlast⟩ := of_decide_eq_true ht
        cases f with
        | subject => rfl
        | predicate => exact hfirst.symm
        | object => exact hlast.symm
      · simp [columnsOf]
    · by_cases ho : assigned vars object = true
      · rw [if_pos rfl, if_neg hso, if_pos ho] at hscanned
        subst hscanned
        refine h.scanEqual .equalSpInverted (TriplePlan.pattern subject subject object) .subject
          .predicate .object (.inr rfl) ?_ (fun t => ?_) rfl (Ne.symm hso)
          (hfields _ _ _ (by decide) (by decide) (by decide))
        · simp [columnsOf, TriplePlan.pattern, ho]
        · exact decide_eq_true_iff.trans eq_comm
      · rw [if_pos rfl, if_neg hso, if_neg ho] at hscanned
        subst hscanned
        refine h.scanEqual .equalSp (TriplePlan.pattern subject subject object) .subject
          .predicate .object (.inl rfl) ?_ (fun t => ?_) rfl (Ne.symm hso)
          (hfields _ _ _ (by decide) (by decide) (by decide))
        · simp [columnsOf, TriplePlan.pattern, ho]
        · exact decide_eq_true_iff.trans eq_comm
  · by_cases hso : subject = object
    · subst hso
      by_cases hp : assigned vars predicate = true
      · rw [if_neg hsp, if_pos rfl, if_pos hp] at hscanned
        subst hscanned
        refine h.scanEqual .equalSoInverted (TriplePlan.pattern subject predicate subject) .subject
          .object .predicate (.inr rfl) ?_ (fun t => ?_) rfl (Ne.symm hsp)
          (hfields _ _ _ (by decide) (by decide) (by decide))
        · simp [columnsOf, TriplePlan.pattern, hp]
        · exact decide_eq_true_iff.trans eq_comm
      · rw [if_neg hsp, if_pos rfl, if_neg hp] at hscanned
        subst hscanned
        refine h.scanEqual .equalSo (TriplePlan.pattern subject predicate subject) .subject
          .object .predicate (.inl rfl) ?_ (fun t => ?_) rfl (Ne.symm hsp)
          (hfields _ _ _ (by decide) (by decide) (by decide))
        · simp [columnsOf, TriplePlan.pattern, hp]
        · exact decide_eq_true_iff.trans eq_comm
    · by_cases hpo : predicate = object
      · subst hpo
        by_cases hs : assigned vars subject = true
        · rw [if_neg hsp, if_neg hso, if_pos rfl, if_pos hs] at hscanned
          subst hscanned
          refine h.scanEqual .equalPoInverted (TriplePlan.pattern subject predicate predicate)
            .predicate .object .subject (.inr rfl) ?_ (fun t => ?_) rfl hsp
            (hfields _ _ _ (by decide) (by decide) (by decide))
          · simp [columnsOf, TriplePlan.pattern, hs]
          · exact decide_eq_true_iff.trans eq_comm
        · rw [if_neg hsp, if_neg hso, if_pos rfl, if_neg hs] at hscanned
          subst hscanned
          refine h.scanEqual .equalPo (TriplePlan.pattern subject predicate predicate)
            .predicate .object .subject (.inl rfl) ?_ (fun t => ?_) rfl hsp
            (hfields _ _ _ (by decide) (by decide) (by decide))
          · simp [columnsOf, TriplePlan.pattern, hs]
          · exact decide_eq_true_iff.trans eq_comm
      · have hpattern : Function.Injective (TriplePlan.pattern subject predicate object) := by
          intro f g heq
          cases f <;> cases g <;>
            first | rfl | exact absurd heq hsp | exact absurd heq hso | exact absurd heq hpo |
              exact absurd heq.symm hsp | exact absurd heq.symm hso | exact absurd heq.symm hpo
        rw [if_neg hsp, if_neg hso, if_neg hpo] at hscanned
        -- the bound positions come first
        have hfirst : (columnsOf i).Pairwise fun f g =>
            assigned vars (TriplePlan.pattern subject predicate object g) = true →
              assigned vars (TriplePlan.pattern subject predicate object f) = true := by
          rw [← hscanned]
          split_ifs <;> simp_all [columnsOf, TriplePlan.pattern]
        have hall : (∀ f, f ∈ columnsOf i) ∧ ∀ t, selects i t = true := by
          rw [← hscanned]
          split_ifs <;> exact ⟨fun f => by cases f <;> simp [columnsOf], fun _ => rfl⟩
        exact h.scanAll i _ hall.1 hfirst hall.2 hpattern

end

section

variable {varOrder vars : List Nat} {enumerationLevel v : Nat} {id : Id} {pattern : Field → Id}

theorem searchIndex_succ (enumerationLevel : Nat) (index : Int) :
    searchIndex varOrder (enumerationLevel + 1) id index =
      if searchIndex varOrder enumerationLevel id index = int32Max ∧
          varOrder[enumerationLevel]?.map Id.var = some id then (enumerationLevel : Int)
      else searchIndex varOrder enumerationLevel id index := by
  rw [searchIndex, List.range_succ, List.foldl_append, List.foldl_cons, List.foldl_nil, ← searchIndex]

theorem searchIndex_bound : searchIndex varOrder enumerationLevel id (-1) = -1 := by
  induction enumerationLevel with
  | zero => rfl
  | succ n ih =>
    rw [searchIndex_succ, ih, if_neg]
    exact fun h => absurd h.1 (by decide)

theorem idxOf_lt_of_mem_take (hv : v ∈ varOrder.take enumerationLevel) :
    varOrder.idxOf v < enumerationLevel := by
  have hidx := List.idxOf_lt_length_of_mem hv
  rw [List.length_take] at hidx
  rw [← List.take_append_drop enumerationLevel varOrder, List.idxOf_append_of_mem hv]
  omega

theorem searchIndex_var (hlevel : enumerationLevel ≤ 2 ^ 31 - 1) :
    searchIndex varOrder enumerationLevel (.var v) int32Max =
      if v ∈ varOrder.take enumerationLevel then (varOrder.idxOf v : Int) else int32Max := by
  induction enumerationLevel with
  | zero => rfl
  | succ n ih =>
    rw [searchIndex_succ, ih (by omega)]
    have htake : v ∈ varOrder.take (n + 1) ↔ v ∈ varOrder.take n ∨ varOrder[n]? = some v := by
      rw [List.take_add_one, List.mem_append, Option.mem_toList]
    have hmap : varOrder[n]?.map Id.var = some (Id.var v) ↔ varOrder[n]? = some v := by
      cases varOrder[n]? <;> simp
    simp only [hmap]
    by_cases hv : v ∈ varOrder.take n
    · have hlt := idxOf_lt_of_mem_take hv
      rw [if_pos hv, if_pos (htake.mpr (.inl hv)), if_neg]
      intro h
      have hmax : (varOrder.idxOf v : Int) = 2 ^ 31 - 1 := h.1
      omega
    · rw [if_neg hv]
      by_cases hn : varOrder[n]? = some v
      · have hlt : n < varOrder.length := (List.getElem?_eq_some_iff.mp hn).1
        have hget : varOrder[n] = v := (List.getElem?_eq_some_iff.mp hn).2
        have hidx : varOrder.idxOf v = n := by
          rw [← List.take_append_drop n varOrder, List.idxOf_append_of_notMem hv,
            List.drop_eq_getElem_cons hlt, hget, List.idxOf_cons_self, List.length_take]
          omega
        rw [if_pos ⟨rfl, hn⟩, if_pos (htake.mpr (.inr hn)), hidx]
      · rw [if_neg fun h => hn h.2, if_neg fun h => (htake.mp h).elim hv hn]

def rank (vars varOrder : List Nat) (enumerationLevel : Nat) (id : Id) : Int :=
  searchIndex varOrder enumerationLevel id (assignIndex id (assigned vars id))

theorem rank_assigned (hid : assigned vars id = true) :
    rank vars varOrder enumerationLevel id = -1 := by
  rw [rank, hid, assignIndex, if_pos (.inr rfl), searchIndex_bound]

theorem rank_free (hlevel : enumerationLevel ≤ 2 ^ 31 - 1) (hv : v ∉ vars) :
    rank vars varOrder enumerationLevel (.var v) =
      if v ∈ varOrder.take enumerationLevel then (varOrder.idxOf v : Int) else int32Max := by
  have hindex : assignIndex (.var v) (assigned vars (.var v)) = int32Max := by
    simp [assignIndex, holdsObject, assigned, hv]
  rw [rank, hindex, searchIndex_var hlevel]

theorem LeapfrogBptIter.push_bound (it : LeapfrogBptIter) : LeapfrogBptIter.push (-1) id it =
    { it with initialRanges := it.initialRanges ++ [ScanRange.get id true] } := by
  simp [push]

theorem LeapfrogBptIter.push_enumeration (it : LeapfrogBptIter) :
    LeapfrogBptIter.push int32Max (.var v) it =
      { it with enumerationVars := it.enumerationVars ++ [v] } := by
  simp [push, int32Max]

theorem LeapfrogBptIter.push_intersection {index : Int} (hindex : 0 ≤ index) (hmax : index < int32Max)
    (it : LeapfrogBptIter) : LeapfrogBptIter.push index (.var v) it =
      { it with intersectionVars := it.intersectionVars ++ [v] } := by
  have hbound : index ≠ -1 := by omega
  simp [push, hbound, hmax.ne]

def pushes (pattern : Field → Id) (vars varOrder : List Nat) (enumerationLevel : Nat)
    (columns : List Field) (it : LeapfrogBptIter) : LeapfrogBptIter :=
  columns.foldl (fun it f =>
    LeapfrogBptIter.push (rank vars varOrder enumerationLevel (pattern f)) (pattern f) it) it

theorem pushes_known {known : List Field} (hknown : ∀ f ∈ known, assigned vars (pattern f) = true)
    (it : LeapfrogBptIter) : pushes pattern vars varOrder enumerationLevel known it =
      { it with initialRanges := it.initialRanges ++ known.map fun f => ScanRange.get (pattern f) true } := by
  induction known generalizing it with
  | nil => simp [pushes]
  | cons f known ih =>
    obtain ⟨hf, hknown⟩ := List.forall_mem_cons.mp hknown
    rw [pushes, List.foldl_cons, ← pushes, ih hknown, rank_assigned hf,
      LeapfrogBptIter.push_bound]
    simp

theorem pushes_vars {columns : List Field} {vs : List Nat}
    (hcolumns : columns.map pattern = vs.map Id.var) (it : LeapfrogBptIter) :
    pushes pattern vars varOrder enumerationLevel columns it = vs.foldl (fun it v =>
      LeapfrogBptIter.push (rank vars varOrder enumerationLevel (.var v)) (.var v) it) it := by
  rw [← List.foldl_map (f := Id.var) (g := fun it id =>
    LeapfrogBptIter.push (rank vars varOrder enumerationLevel id) id it), ← hcolumns, List.foldl_map]
  rfl

theorem pushes_intersection (hlevel : enumerationLevel ≤ 2 ^ 31 - 1) {columns : List Field}
    {intersectionVars : List Nat} (hcolumns : columns.map pattern = intersectionVars.map Id.var)
    (hfree : ∀ v ∈ intersectionVars, v ∉ vars ∧ v ∈ varOrder.take enumerationLevel)
    (it : LeapfrogBptIter) : pushes pattern vars varOrder enumerationLevel columns it =
      { it with intersectionVars := it.intersectionVars ++ intersectionVars } := by
  rw [pushes_vars hcolumns]
  clear hcolumns
  induction intersectionVars generalizing it with
  | nil => simp
  | cons v intersectionVars ih =>
    obtain ⟨⟨hvars, htake⟩, hfree⟩ := List.forall_mem_cons.mp hfree
    have hlt := idxOf_lt_of_mem_take htake
    have hmax : (varOrder.idxOf v : Int) < int32Max := by
      rw [int32Max]
      omega
    rw [List.foldl_cons, ih hfree, rank_free hlevel hvars, if_pos htake,
      LeapfrogBptIter.push_intersection (by omega) hmax]
    simp

theorem pushes_enumeration (hlevel : enumerationLevel ≤ 2 ^ 31 - 1) {columns : List Field}
    {enumerationVars : List Nat} (hcolumns : columns.map pattern = enumerationVars.map Id.var)
    (hfree : ∀ v ∈ enumerationVars, v ∉ vars ∧ v ∉ varOrder.take enumerationLevel)
    (it : LeapfrogBptIter) : pushes pattern vars varOrder enumerationLevel columns it =
      { it with enumerationVars := it.enumerationVars ++ enumerationVars } := by
  rw [pushes_vars hcolumns]
  clear hcolumns
  induction enumerationVars generalizing it with
  | nil => simp
  | cons v enumerationVars ih =>
    obtain ⟨⟨hvars, htake⟩, hfree⟩ := List.forall_mem_cons.mp hfree
    rw [List.foldl_cons, ih hfree, rank_free hlevel hvars, if_neg htake,
      LeapfrogBptIter.push_enumeration]
    simp

theorem exists_vars (pattern : Field → Id) (P : Nat → Prop) {columns : List Field}
    (h : ∀ f ∈ columns, ∃ v, pattern f = .var v ∧ P v) :
    ∃ vs : List Nat, columns.map pattern = vs.map Id.var ∧ ∀ v ∈ vs, P v := by
  induction columns with
  | nil => exact ⟨[], rfl, by simp⟩
  | cons f columns ih =>
    obtain ⟨⟨v, hf, hv⟩, hcolumns⟩ := List.forall_mem_cons.mp h
    obtain ⟨vs, hmap, hvs⟩ := ih hcolumns
    exact ⟨v :: vs, by simp [hf, hmap], List.forall_mem_cons.mpr ⟨hv, hvs⟩⟩

theorem exists_var_of_free (hid : assigned vars id = false) : ∃ v, id = .var v ∧ v ∉ vars := by
  cases id with
  | object o => cases hid
  | var v => exact ⟨v, rfl, of_decide_eq_false hid⟩

/-- When an iterator is added, no variable is repeated, and the positions are taken in the order of
their indexes. -/
theorem getLeapfrogIter_eq_some {p : TriplePlan} {it : LeapfrogBptIter}
    (hsubject : p.subjectAssigned = assigned vars p.subject)
    (hpredicate : p.predicateAssigned = assigned vars p.predicate)
    (hobject : p.objectAssigned = assigned vars p.object)
    (hit : p.getLeapfrogIter varOrder enumerationLevel = some it) :
    (∀ f g v, TriplePlan.pattern p.subject p.predicate p.object f = .var v →
      TriplePlan.pattern p.subject p.predicate p.object g = .var v → f = g) ∧
    ∃ i, (∀ f, f ∈ columnsOf i) ∧ (∀ t, selects i t = true) ∧
      ((columnsOf i).map (TriplePlan.pattern p.subject p.predicate p.object)).Pairwise (fun x y =>
        rank vars varOrder enumerationLevel x ≤ rank vars varOrder enumerationLevel y) ∧
      it = pushes (TriplePlan.pattern p.subject p.predicate p.object) vars varOrder enumerationLevel
        (columnsOf i) ⟨i, [], [], []⟩ := by
  unfold TriplePlan.getLeapfrogIter at hit
  rw [hsubject, hpredicate, hobject] at hit
  split_ifs at hit with hequal
  dsimp only at hit
  constructor
  · intro f g v hf hg
    by_contra hne
    apply hequal
    clear hequal hit hsubject hpredicate hobject
    cases f <;> cases g <;> simp_all [TriplePlan.pattern, holdsObject]
  · split_ifs at hit with hpos hpso hspo hosp
    · refine ⟨.pos, fun f => by cases f <;> simp [columnsOf], fun _ => rfl, ?_, (Option.some.inj hit).symm⟩
      simpa [columnsOf, TriplePlan.pattern] using ⟨⟨hpos.1, hpos.1.trans hpos.2⟩, hpos.2⟩
    · refine ⟨.pso, fun f => by cases f <;> simp [columnsOf], fun _ => rfl, ?_, (Option.some.inj hit).symm⟩
      simpa [columnsOf, TriplePlan.pattern] using ⟨⟨hpso.1, hpso.1.trans hpso.2⟩, hpso.2⟩
    · refine ⟨.spo, fun f => by cases f <;> simp [columnsOf], fun _ => rfl, ?_, (Option.some.inj hit).symm⟩
      simpa [columnsOf, TriplePlan.pattern] using ⟨⟨hspo.1, hspo.1.trans hspo.2⟩, hspo.2⟩
    · refine ⟨.osp, fun f => by cases f <;> simp [columnsOf], fun _ => rfl, ?_, (Option.some.inj hit).symm⟩
      simpa [columnsOf, TriplePlan.pattern] using ⟨⟨hosp.1, hosp.1.trans hosp.2⟩, hosp.2⟩

end

section

variable {triples : Finset Triple} {tree : ImportRdf.Index → List Tuple} {pattern : Field → Id}
  {inputs varOrder : List Nat} {enumerationLevel : Nat} {b : Binding}

theorem rank_le (varOrder : List Nat) (hlevel : enumerationLevel ≤ 2 ^ 31 - 1) {id : Id} (hid : assigned inputs id = false) :
    0 ≤ rank inputs varOrder enumerationLevel id ∧ rank inputs varOrder enumerationLevel id ≤ int32Max := by
  obtain ⟨v, rfl, hv⟩ := exists_var_of_free hid
  rw [rank_free hlevel hv, int32Max]
  split_ifs with htake
  · have hlt := idxOf_lt_of_mem_take htake
    omega
  · omega

/-- Positions in the order of their indexes: first the bound ones, then the intersection variables
and then the others. -/
structure Parts (pattern : Field → Id) (inputs varOrder : List Nat) (enumerationLevel : Nat)
    (columns known middle last : List Field) (intersectionVars enumerationVars : List Nat) : Prop where
  columns : columns = known ++ (middle ++ last)
  known : ∀ f ∈ known, assigned inputs (pattern f) = true
  middle : middle.map pattern = intersectionVars.map Id.var
  intersection : ∀ v ∈ intersectionVars, v ∉ inputs ∧ v ∈ varOrder.take enumerationLevel
  last : last.map pattern = enumerationVars.map Id.var
  enumeration : ∀ v ∈ enumerationVars, v ∉ inputs ∧ v ∉ varOrder.take enumerationLevel

theorem exists_parts (hlevel : enumerationLevel ≤ 2 ^ 31 - 1) {columns : List Field}
    (hsorted : (columns.map pattern).Pairwise fun x y =>
      rank inputs varOrder enumerationLevel x ≤ rank inputs varOrder enumerationLevel y) :
    ∃ (known middle last : List Field) (intersectionVars enumerationVars : List Nat),
      Parts pattern inputs varOrder enumerationLevel columns known middle last intersectionVars
        enumerationVars := by
  rw [List.pairwise_map] at hsorted
  have hknown : columns.Pairwise fun f g =>
      assigned inputs (pattern g) = true → assigned inputs (pattern f) = true := by
    refine hsorted.imp fun {f g} hle hg => ?_
    by_contra hf
    rw [rank_assigned hg] at hle
    have hmin := (rank_le varOrder hlevel (Bool.eq_false_iff.mpr hf)).1
    omega
  have hfree : ∀ f ∈ columns.filter (fun f => !assigned inputs (pattern f)),
      assigned inputs (pattern f) = false := fun f hf => by simpa using (List.mem_filter.mp hf).2
  have hmiddle : (columns.filter fun f => !assigned inputs (pattern f)).Pairwise fun f g =>
      decide (rank inputs varOrder enumerationLevel (pattern g) ≠ int32Max) = true →
        decide (rank inputs varOrder enumerationLevel (pattern f) ≠ int32Max) = true := by
    refine (hsorted.sublist List.filter_sublist).imp_of_mem fun {f g} _ hg hle h => ?_
    have hmax := (rank_le varOrder hlevel (hfree g hg)).2
    simp only [ne_eq, decide_not, Bool.not_eq_eq_eq_not, Bool.not_true, decide_eq_false_iff_not] at h ⊢
    omega
  have hrank : ∀ f ∈ columns.filter (fun f => !assigned inputs (pattern f)), ∃ v, pattern f = .var v ∧
      v ∉ inputs ∧ (rank inputs varOrder enumerationLevel (pattern f) = int32Max ↔
        v ∉ varOrder.take enumerationLevel) := by
    intro f hf
    obtain ⟨v, hv, hinputs⟩ := exists_var_of_free (hfree f hf)
    refine ⟨v, hv, hinputs, ?_⟩
    rw [hv, rank_free hlevel hinputs, int32Max]
    split_ifs with htake
    · have hlt := idxOf_lt_of_mem_take htake
      simp only [htake, not_true_eq_false, iff_false]
      omega
    · simp [htake]
  obtain ⟨intersectionVars, hintersection, hvars⟩ := exists_vars pattern
    (fun v => v ∉ inputs ∧ v ∈ varOrder.take enumerationLevel) (show ∀ f ∈
      (columns.filter fun f => !assigned inputs (pattern f)).filter fun f =>
        decide (rank inputs varOrder enumerationLevel (pattern f) ≠ int32Max), _ from by
    intro f hf
    obtain ⟨hf, hne⟩ := List.mem_filter.mp hf
    obtain ⟨v, hv, hinputs, hiff⟩ := hrank f hf
    refine ⟨v, hv, hinputs, ?_⟩
    by_contra htake
    exact of_decide_eq_true hne (hiff.mpr htake))
  obtain ⟨enumerationVars, henumeration, hvars'⟩ := exists_vars pattern
    (fun v => v ∉ inputs ∧ v ∉ varOrder.take enumerationLevel) (show ∀ f ∈
      (columns.filter fun f => !assigned inputs (pattern f)).filter fun f =>
        !decide (rank inputs varOrder enumerationLevel (pattern f) ≠ int32Max), _ from by
    intro f hf
    obtain ⟨hf, heq⟩ := List.mem_filter.mp hf
    obtain ⟨v, hv, hinputs, hiff⟩ := hrank f hf
    exact ⟨v, hv, hinputs, hiff.mp (by simpa using heq)⟩)
  refine ⟨columns.filter fun f => assigned inputs (pattern f), _, _, intersectionVars, enumerationVars,
    ?_, fun f hf => (List.mem_filter.mp hf).2, hintersection, hvars, henumeration, hvars'⟩
  rw [← eq_filter_append hmiddle]
  exact eq_filter_append hknown

theorem nodup_columnsOf (i : ImportRdf.Index) : (columnsOf i).Nodup := by
  cases i <;> decide

namespace Parts

variable {columns known middle last : List Field} {intersectionVars enumerationVars : List Nat}
  {it : LeapfrogBptIter} {i : ImportRdf.Index}
  (h : Parts pattern inputs varOrder enumerationLevel columns known middle last intersectionVars
    enumerationVars)

include h

theorem vars :
    (middle ++ last).map pattern = (intersectionVars ++ enumerationVars).map Id.var := by
  rw [List.map_append, h.middle, h.last, List.map_append]

theorem free : ∀ f ∈ middle ++ last, assigned inputs (pattern f) = false := by
  intro f hf
  have hmem : pattern f ∈ (intersectionVars ++ enumerationVars).map Id.var := by
    rw [← h.vars]
    exact List.mem_map_of_mem hf
  obtain ⟨v, hv, heq⟩ := List.mem_map.mp hmem
  rw [← heq]
  apply decide_eq_false
  rcases List.mem_append.mp hv with hv | hv
  · exact (h.intersection v hv).1
  · exact (h.enumeration v hv).1

/-- What the iterator gets when the positions are taken in this order. -/
theorem pushes_eq (hlevel : enumerationLevel ≤ 2 ^ 31 - 1) :
    pushes pattern inputs varOrder enumerationLevel columns ⟨i, [], [], []⟩ =
      ⟨i, known.map (fun f => ScanRange.get (pattern f) true), intersectionVars, enumerationVars⟩ := by
  rw [h.columns, pushes, List.foldl_append, List.foldl_append, ← pushes, ← pushes, ← pushes,
    pushes_known h.known, pushes_intersection hlevel h.middle h.intersection,
    pushes_enumeration hlevel h.last h.enumeration]
  rfl

theorem ranges_eq :
    LeapfrogBptIter.ranges ⟨i, known.map (fun f => ScanRange.get (pattern f) true), intersectionVars,
      enumerationVars⟩ = (scanOf pattern inputs (known ++ (middle ++ last)) []).ranges := by
  have hget : (middle ++ last).map (fun f => ScanRange.get (pattern f) (assigned inputs (pattern f))) =
      (intersectionVars ++ enumerationVars).map ScanRange.unassignedVar := by
    calc (middle ++ last).map (fun f => ScanRange.get (pattern f) (assigned inputs (pattern f)))
        = ((middle ++ last).map pattern).map fun id => ScanRange.get id false := by
          rw [List.map_map]
          exact List.map_congr_left fun f hf => by rw [Function.comp_apply, h.free f hf]
      _ = (intersectionVars ++ enumerationVars).map ScanRange.unassignedVar := by
          rw [h.vars, List.map_map]
          rfl
  have hterms : known.map (fun f => ScanRange.get (pattern f) true) =
      known.map fun f => ScanRange.get (pattern f) (assigned inputs (pattern f)) :=
    List.map_congr_left fun f hf => by rw [h.known f hf]
  simp only [LeapfrogBptIter.ranges, scanOf]
  rw [← hget, hterms, ← List.map_append]

/-- The indexes of the intersection variables do not decrease, and no variable is repeated. -/
theorem ordered (hlevel : enumerationLevel ≤ 2 ^ 31 - 1)
    (hdistinct : ∀ f g v, pattern f = .var v → pattern g = .var v → f = g) (hnodup : columns.Nodup)
    (hsorted : (columns.map pattern).Pairwise fun x y =>
      rank inputs varOrder enumerationLevel x ≤ rank inputs varOrder enumerationLevel y) :
    intersectionVars.Pairwise fun v w => varOrder.idxOf v < varOrder.idxOf w := by
  have hle : intersectionVars.Pairwise fun v w =>
      rank inputs varOrder enumerationLevel (.var v) ≤ rank inputs varOrder enumerationLevel (.var w) := by
    rw [h.columns, List.map_append, List.map_append, h.middle] at hsorted
    have hpart := (List.pairwise_append.mp (List.pairwise_append.mp hsorted).2.1).1
    rw [List.pairwise_map] at hpart
    exact hpart
  have hvars : intersectionVars.Nodup := by
    have hmap : (intersectionVars.map Id.var).Nodup := by
      rw [← h.middle]
      have hpart : middle.Nodup := by
        rw [h.columns] at hnodup
        exact (List.nodup_append.mp (List.nodup_append.mp hnodup).2.1).1
      refine hpart.map_on fun f hf g hg heq => ?_
      obtain ⟨v, hv, -⟩ := exists_var_of_free (h.free f (List.mem_append_left _ hf))
      exact hdistinct f g v hv (heq ▸ hv)
    exact hmap.of_map _
  apply (hle.and hvars).imp_of_mem
  rintro v w hv hw ⟨hvw, hne⟩
  rw [rank_free hlevel (h.intersection v hv).1, rank_free hlevel (h.intersection w hw).1,
    if_pos (h.intersection v hv).2, if_pos (h.intersection w hw).2] at hvw
  have hmem : v ∈ varOrder := List.mem_of_mem_take (h.intersection v hv).2
  have hidx : varOrder.idxOf v ≠ varOrder.idxOf w := fun heq => hne ((List.idxOf_inj hmem).mp heq)
  omega

/-- The records that begin with the initial ranges are those of the triples that match. -/
theorem denotes_eq (hholds : HoldsTriples triples tree) (hcolumns : columns = columnsOf i)
    (hall : ∀ f, f ∈ columnsOf i) (hselects : ∀ t, selects i t = true)
    (hdistinct : ∀ f g v, pattern f = .var v → pattern g = .var v → f = g)
    (hit : it = ⟨i, known.map (fun f => ScanRange.get (pattern f) true), intersectionVars,
      enumerationVars⟩) : it.denotes tree pattern b =
        {fields | ∃ t ∈ triples, (fun f => field f t) = fields ∧ Matches field pattern inputs b t} := by
  have hranges : it.ranges = (scanOf pattern inputs (known ++ (middle ++ last)) []).ranges :=
    hit ▸ h.ranges_eq
  have hrow : ∀ t, Scanned field pattern (selects i · = true) known b t →
      (fun f => value (assign it.ranges ((known ++ (middle ++ last)).map (field · t)) b) (pattern f)) =
        fun f => field f t := by
    intro t hscanned
    funext f
    rw [hranges]
    refine value_rowOf hscanned h.known h.free (fun f => ⟨f, h.columns ▸ hcolumns ▸ hall f, rfl, rfl⟩)
      (fun f hf g _ heq => ?_) f
    obtain ⟨v, hv, -⟩ := exists_var_of_free (h.free f hf)
    rw [hdistinct f g v hv (heq ▸ hv)]
  have hstart : ∀ t : Triple, it.initialRanges.map (·.getMin b) <+:
      (known ++ (middle ++ last)).map (field · t) ↔ ∀ f ∈ known, value b (pattern f) = field f t := by
    intro t
    have hmin : it.initialRanges.map (·.getMin b) = known.map fun f => value b (pattern f) := by
      rw [hit, List.map_map]
      refine List.map_congr_left fun f hf => ?_
      have hends := (ends_of_assigned (b := b) (h.known f hf)).1
      rwa [h.known f hf] at hends
    rw [hmin, List.prefix_iff_eq_take, List.map_append, List.take_left' (by simp), List.map_inj_left]
  ext fields
  have hbpt : it.bpt = i := by rw [hit]
  simp only [LeapfrogBptIter.denotes, Set.mem_ofPred_eq, hbpt]
  constructor
  · rintro ⟨r, hr, hprefix, hfields⟩
    obtain ⟨t, ht, -, hrecord⟩ := (hholds.mem i r).mp hr
    rw [recordOf_eq, ← hcolumns, h.columns] at hrecord
    subst hrecord
    have hscanned : Scanned field pattern (selects i · = true) known b t :=
      ⟨hselects t, (hstart t).mp hprefix⟩
    have hvalues := hrow t hscanned
    refine ⟨t, ht, by rw [hfields, hvalues], _, fun v hv => ?_, fun f => congrFun hvalues f⟩
    rw [hranges]
    exact rowOf_input hv
  · rintro ⟨t, ht, hfields, hmatches⟩
    have hscanned : Scanned field pattern (selects i · = true) known b t :=
      hmatches.scanned (fun t _ => hselects t) h.known
    refine ⟨recordOf i t, (hholds.mem i _).mpr ⟨t, ht, hselects t, rfl⟩, ?_, ?_⟩
    · rw [recordOf_eq, ← hcolumns, h.columns]
      exact (hstart t).mpr hscanned.2
    · rw [recordOf_eq, ← hcolumns, h.columns, hrow t hscanned, hfields]

end Parts

theorem leapfrogRight (h : HoldsTriples triples tree) {subject predicate object : Id}
    (hlevel : enumerationLevel ≤ 2 ^ 31 - 1) {it : LeapfrogBptIter}
    (hit : (TriplePlan.bound subject predicate object inputs).getLeapfrogIter varOrder
      enumerationLevel = some it) :
    LeapfrogRight triples tree (TriplePlan.pattern subject predicate object) inputs varOrder
      enumerationLevel b it := by
  obtain ⟨hdistinct, i, hall, hselects, hsorted, hpushes⟩ := getLeapfrogIter_eq_some rfl rfl rfl hit
  simp only [TriplePlan.bound] at hdistinct hsorted hpushes
  obtain ⟨known, middle, last, intersectionVars, enumerationVars, hparts⟩ := exists_parts hlevel hsorted
  rw [hparts.pushes_eq hlevel] at hpushes
  subst hpushes
  exact
    { columns := ⟨known, middle ++ last, hparts.columns, hparts.known, rfl, hparts.free, hparts.vars⟩
      intersection := fun v hv => (hparts.intersection v hv).2
      ordered := hparts.ordered hlevel hdistinct (nodup_columnsOf i) hsorted
      enumeration := fun v hv => (hparts.enumeration v hv).2
      denotes := hparts.denotes_eq h rfl hall hselects hdistinct rfl }

/-- Up to `INT32_MAX` intersection variables, the scan returns the triples that match, and so does
the iterator for leapfrog whenever there is one. -/
theorem triplePlan_right (h : HoldsTriples triples tree) (subject predicate object : Id)
    (inputs : List (List Nat)) (hlevel : enumerationLevel ≤ 2 ^ 31 - 1) :
    ScanRight triples tree subject predicate object inputs b ∧
      ∀ it, (TriplePlan.planned subject predicate object inputs).getLeapfrogIter varOrder
          enumerationLevel = some it →
        LeapfrogRight triples tree (TriplePlan.pattern subject predicate object) inputs.flatten varOrder
          enumerationLevel b it := by
  refine ⟨scanRight h inputs, fun it hit => ?_⟩
  rw [TriplePlan.planned_eq_bound] at hit
  exact leapfrogRight h hlevel hit

def treeOf (t : Triple) (i : ImportRdf.Index) : List Tuple := if selects i t then [recordOf i t] else []

theorem holdsTriples_treeOf {t : Triple} (hsmall : ∀ f, field f t < 2 ^ 64) :
    HoldsTriples {t} (treeOf t) where
  ordered i := by
    rw [treeOf]
    split_ifs <;> simp
  mem i record := by
    simp only [treeOf, Finset.mem_singleton]
    split_ifs with hselects
    · simp [hselects, eq_comm]
    · simp [hselects]
  small := by simpa using hsmall

theorem triplePlan_right_one :
    HoldsTriples {((1, 2, 3) : Triple)} (treeOf (1, 2, 3)) ∧ 1 ≤ 2 ^ 31 - 1 ∧
      ScanRight {((1, 2, 3) : Triple)} (treeOf (1, 2, 3)) (.var 0) (.object 2) (.var 1) [[0]]
        (fun _ => 1) ∧
      ∀ it, (TriplePlan.planned (.var 0) (.object 2) (.var 1) [[0]]).getLeapfrogIter [1] 1 = some it →
        LeapfrogRight {((1, 2, 3) : Triple)} (treeOf (1, 2, 3))
          (TriplePlan.pattern (.var 0) (.object 2) (.var 1)) [0] [1] 1 (fun _ => 1) it := by
  have hholds : HoldsTriples {((1, 2, 3) : Triple)} (treeOf (1, 2, 3)) :=
    holdsTriples_treeOf fun f => by cases f <;> decide
  exact ⟨hholds, by decide, triplePlan_right hholds (.var 0) (.object 2) (.var 1) [[0]] (by decide)⟩

theorem searchIndex_range {n m v : Nat} (hm : m ≤ n) :
    searchIndex (List.range n) m (.var v) int32Max = if v < m then (v : Int) else int32Max := by
  induction m with
  | zero => rfl
  | succ m ih =>
    rw [searchIndex_succ, ih (by omega), List.getElem?_range (by omega)]
    by_cases hv : v < m
    · have hne : ¬ m = v := by omega
      simp [hv, hne, show v < m + 1 by omega]
    · by_cases heq : m = v
      · subst heq
        simp
      · simp [hv, heq, show ¬ v < m + 1 by omega]

theorem getLeapfrogIter_osp {varOrder : List Nat} {enumerationLevel v w o : Nat} {index : Int}
    (hne : v ≠ w) (hv : searchIndex varOrder enumerationLevel (.var v) int32Max = int32Max)
    (hw : searchIndex varOrder enumerationLevel (.var w) int32Max = index) (hindex : int32Max < index) :
    (TriplePlan.planned (.var v) (.var w) (.object o) []).getLeapfrogIter varOrder enumerationLevel =
      some ⟨.osp, [.term o], [w], [v]⟩ := by
  have ho : searchIndex varOrder enumerationLevel (.object o) (-1) = -1 := searchIndex_bound
  have hmax : int32Max = 2147483647 := rfl
  have hpush : ∀ it, LeapfrogBptIter.push index (.var w) it =
      { it with intersectionVars := it.intersectionVars ++ [w] } := by
    intro it
    simp [LeapfrogBptIter.push, show index ≠ -1 by omega, hindex.ne']
  have hfirst : ¬ index ≤ -1 := by omega
  have hlast : ¬ index ≤ int32Max := by omega
  have hbound : ¬ int32Max ≤ -1 := by omega
  have hzero : -1 ≤ int32Max := by omega
  simp only [TriplePlan.getLeapfrogIter, TriplePlan.planned, TriplePlan.new, List.foldl_nil, holdsObject,
    assignIndex, Bool.false_eq_true, or_self, if_false, Id.var.injEq, hne, reduceCtorEq, and_false,
    if_true, hv, hw, ho, hpush, LeapfrogBptIter.push_bound, LeapfrogBptIter.push_enumeration,
    hfirst, hlast, hbound, hzero, hindex.le, and_self, and_true, ScanRange.get, List.nil_append]

/-- The intersection variable number `INT32_MAX` is taken for one that is enumerated, and its column
comes before the one of another intersection variable. -/
theorem not_triplePlan_right :
    ¬ ∀ (triples : Finset Triple) (tree : ImportRdf.Index → List Tuple) (subject predicate object : Id)
      (inputs : List (List Nat)) (varOrder : List Nat) (enumerationLevel : Nat) (b : Binding),
      HoldsTriples triples tree → varOrder.Nodup → enumerationLevel ≤ varOrder.length →
      ScanRight triples tree subject predicate object inputs b ∧
        ∀ it, (TriplePlan.planned subject predicate object inputs).getLeapfrogIter varOrder
            enumerationLevel = some it →
          LeapfrogRight triples tree (TriplePlan.pattern subject predicate object) inputs.flatten
            varOrder enumerationLevel b it := by
  intro h
  have hright := (h {(1, 2, 3)} (treeOf (1, 2, 3)) (.var (2 ^ 31 - 1)) (.var (2 ^ 31)) (.object 3) []
    (List.range (2 ^ 31 + 1)) (2 ^ 31 + 1) (fun _ => 0)
    (holdsTriples_treeOf fun f => by cases f <;> decide) List.nodup_range
    (List.length_range.symm.le)).2
  have hsubject : searchIndex (List.range (2 ^ 31 + 1)) (2 ^ 31 + 1) (.var (2 ^ 31 - 1)) int32Max =
      int32Max := by
    rw [searchIndex_range le_rfl, if_pos (by norm_num)]
    rfl
  have hpredicate : searchIndex (List.range (2 ^ 31 + 1)) (2 ^ 31 + 1) (.var (2 ^ 31)) int32Max =
      2 ^ 31 := by
    rw [searchIndex_range le_rfl, if_pos (by norm_num)]
    rfl
  have hit : (TriplePlan.planned (.var (2 ^ 31 - 1)) (.var (2 ^ 31)) (.object 3) []).getLeapfrogIter
      (List.range (2 ^ 31 + 1)) (2 ^ 31 + 1) =
        some ⟨.osp, [.term 3], [2 ^ 31], [2 ^ 31 - 1]⟩ :=
    getLeapfrogIter_osp (by norm_num) hsubject hpredicate (by decide)
  have htake := (hright _ hit).enumeration (2 ^ 31 - 1) (by simp)
  rw [List.take_of_length_le (by simp)] at htake
  exact htake (List.mem_range.mpr (by norm_num))

end

end TriplePlans
end MillenniumDB
