import MillenniumDB.EdgeTable
import MillenniumDB.Lib.Iterators
import Mathlib.Data.List.Lex
import Mathlib.Order.Basic

/-!
# Index scans

`IndexScan` reads the records of a B+ tree between two records, which it takes from constants,
from variables that are bound and from the bounds of a variable that is not, and assigns the
columns of each record to the variables that are not bound.  A pattern over the fields of a fact is
answered by a scan when the bound fields are the first columns.
-/

namespace MillenniumDB
namespace Scans

def value (b : Binding) : Id → Nat
  | .var v => b v
  | .object id => id

/-- `holds_alternative<ObjectId>`. -/
def holdsObject : Id → Bool
  | .object _ => true
  | .var _ => false

def setInputVar (inputVars : List Nat) (flag : Bool) : Id → Bool
  | .object _ => flag
  | .var v => if v ∈ inputVars then true else flag

/-- `ScanRange`: `Term`, `AssignedVar` and `UnassignedVar`. -/
inductive ScanRange
  | term (objectId : Nat)
  | assignedVar (varId : Nat)
  | unassignedVar (varId : Nat)
  deriving DecidableEq

namespace ScanRange

def get : Id → Bool → ScanRange
  | .object id, _ => .term id
  | .var v, true => .assignedVar v
  | .var v, false => .unassignedVar v

def getMin (b : Binding) : ScanRange → Nat
  | term objectId => objectId
  | assignedVar varId => b varId
  | unassignedVar _ => 0

def getMax (b : Binding) : ScanRange → Nat
  | term objectId => objectId
  | assignedVar varId => b varId
  | unassignedVar _ => 2 ^ 64 - 1

def tryAssign (b : Binding) (id : Nat) : ScanRange → Binding
  | unassignedVar varId => Function.update b varId id
  | _ => b

end ScanRange

/-- `BptIter`: the records from a position on, and the last record of the range. -/
structure BptIter where
  records : List Tuple
  max : Tuple

/-- `get_range`: `search_leaf` finds the first record that is not before `min`. -/
def getRange (bpt : List Tuple) (min max : Tuple) : BptIter := ⟨bpt.dropWhile (· < min), max⟩

/-- `BptIter::next`; it stays at a record behind the range. -/
def BptIter.next (it : BptIter) : Option Tuple × BptIter :=
  match it.records with
  | [] => (none, it)
  | r :: records => if it.max < r then (none, it) else (some r, { it with records })

structure IndexScan where
  bpt : List Tuple
  ranges : List ScanRange

def assign : List ScanRange → Tuple → Binding → Binding
  | range :: ranges, id :: ids, b => assign ranges ids (range.tryAssign b id)
  | _, _, b => b

namespace IndexScan

def begin (scan : IndexScan) (b : Binding) : Binding × BptIter :=
  (b, getRange scan.bpt (scan.ranges.map (·.getMin b)) (scan.ranges.map (·.getMax b)))

/-- `next`; a row is the binding after the assignments. -/
def next (scan : IndexScan) (st : Binding × BptIter) : Option Binding × Binding × BptIter :=
  match st.2.next with
  | (some record, it) =>
    let b := assign scan.ranges record st.1
    (some b, b, it)
  | (none, it) => (none, st.1, it)

end IndexScan

section

variable {ranges : List ScanRange} {ids ids' : Tuple} {b b' : Binding} {v : Nat}

/-- The value that is assigned to a variable, the last one if it has several columns. -/
def written : List ScanRange → Tuple → Nat → Option Nat
  | range :: ranges, id :: ids, v =>
    (written ranges ids v).or (if range = .unassignedVar v then some id else none)
  | _, _, _ => none

theorem assign_apply (ranges : List ScanRange) (ids : Tuple) (b : Binding) (v : Nat) :
    assign ranges ids b v = (written ranges ids v).getD (b v) := by
  induction ranges generalizing ids b with
  | nil => rfl
  | cons range ranges ih =>
    cases ids with
    | nil => rfl
    | cons id ids =>
      rw [assign, written, ih]
      cases written ranges ids v with
      | some o => rfl
      | none =>
        cases range with
        | unassignedVar u =>
          by_cases hu : u = v
          · subst hu
            simp [ScanRange.tryAssign]
          · simp [ScanRange.tryAssign, hu, Function.update_of_ne (Ne.symm hu)]
        | term o => rfl
        | assignedVar u => rfl

theorem isSome_written (hlength : ranges.length = ids.length) :
    (written ranges ids v).isSome ↔ .unassignedVar v ∈ ranges := by
  induction ranges generalizing ids with
  | nil => simp [written]
  | cons range ranges ih =>
    cases ids with
    | nil => simp at hlength
    | cons id ids =>
      rw [written, Option.isSome_or, Bool.or_eq_true, ih (by simpa using hlength), List.mem_cons, or_comm]
      split_ifs with h
      · simp [h]
      · simp [Ne.symm h]

theorem assign_assign (hlength : ranges.length = ids.length) (hlength' : ranges.length = ids'.length) :
    assign ranges ids' (assign ranges ids b) = assign ranges ids' b := by
  funext v
  rw [assign_apply, assign_apply, assign_apply]
  cases hwritten : written ranges ids' v with
  | some o => rfl
  | none =>
    have hnone : written ranges ids v = none := by
      rw [← Option.not_isSome_iff_eq_none, isSome_written hlength, ← isSome_written hlength', hwritten]
      simp
    rw [hnone]
    rfl

theorem IndexScan.yields_rows (scan : IndexScan) (b : Binding)
    (hwidth : ∀ r ∈ scan.bpt, r.length = scan.ranges.length) :
    Yields scan.next (scan.begin b) (((scan.bpt.dropWhile (· < scan.ranges.map (·.getMin b))).takeWhile
      fun r => ¬ scan.ranges.map (·.getMax b) < r).map fun r => assign scan.ranges r b) := by
  apply Yields.of_relation fun st out => st.2.max = scan.ranges.map (·.getMax b) ∧
    (∀ r ∈ st.2.records, r.length = scan.ranges.length) ∧
    (∀ r : Tuple, r.length = scan.ranges.length → assign scan.ranges r st.1 = assign scan.ranges r b) ∧
    out = ((st.2.records.takeWhile fun r => ¬ st.2.max < r).map fun r => assign scan.ranges r b)
  · intro st ⟨hmax, hlengths, hassign, hout⟩
    have hnone : st.2.next = (none, st.2) := by
      cases hrecords : st.2.records with
      | nil => simp [BptIter.next, hrecords]
      | cons r records =>
        have hlast : st.2.max < r := by
          by_contra hlast
          simp only [hrecords, List.takeWhile_cons, hlast, not_false_eq_true, decide_true, if_true,
            List.map_cons] at hout
          exact absurd hout.symm (List.cons_ne_nil _ _)
        simp [BptIter.next, hrecords, hlast]
    have hnext : scan.next st = (none, st) := by simp [IndexScan.next, hnone]
    rw [hnext]
    exact ⟨rfl, hmax, hlengths, hassign, hout⟩
  · intro st row out ⟨hmax, hlengths, hassign, hout⟩
    cases hrecords : st.2.records with
    | nil => simp [hrecords] at hout
    | cons r records =>
      by_cases hlast : st.2.max < r
      · simp only [hrecords, List.takeWhile_cons, hlast, not_true_eq_false, decide_false] at hout
        exact absurd hout (List.cons_ne_nil _ _)
      · have hstep : st.2.next = (some r, { st.2 with records }) := by
          simp [BptIter.next, hrecords, hlast]
        have hr : r.length = scan.ranges.length := hlengths r (by simp [hrecords])
        simp only [hrecords, List.takeWhile_cons, hlast, not_false_eq_true, decide_true, if_true,
          List.map_cons, List.cons.injEq] at hout
        have hnext : scan.next st = (some (assign scan.ranges r st.1), assign scan.ranges r st.1,
            { st.2 with records }) := by simp [IndexScan.next, hstep]
        rw [hnext]
        refine ⟨?_, hmax, fun r' hr' => hlengths r' (by simp [hrecords, hr']), fun r' hr' => ?_, ?_⟩
        · simp only [hout.1, hassign r hr]
        · simp only
          rw [assign_assign hr.symm hr'.symm]
          exact hassign r' hr'
        · simpa using hout.2
  · exact ⟨rfl, fun r hr => hwidth r ((List.dropWhile_sublist _).subset hr), fun _ _ => rfl, rfl⟩

end

section

variable {F E : Type} (get : F → E → Nat) (pattern : F → Id) (inputs : List Nat)

/-- The fields that are constants or variables that are bound before. -/
def assigned : Id → Bool
  | .object _ => true
  | .var v => decide (v ∈ inputs)

/-- A fact agrees with the constants, the bound variables and the variables that are repeated. -/
def Matches (b : Binding) (e : E) : Prop :=
  ∃ b' : Binding, (∀ v ∈ inputs, b' v = b v) ∧ ∀ f, value b' (pattern f) = get f e

def Returns (facts : Set E) (b : Binding) (rows : List Binding) : Prop :=
  (rows.map fun row f => value row (pattern f)).Nodup ∧
    ∀ fields : F → Nat, fields ∈ rows.map (fun row f => value row (pattern f)) ↔
      ∃ e ∈ facts, (fun f => get f e) = fields ∧ Matches get pattern inputs b e

structure Holds (facts : Set E) (selects : E → Prop) (columns : List F) (bpt : List Tuple) : Prop where
  ordered : bpt.Pairwise (· < ·)
  mem : ∀ r, r ∈ bpt ↔ ∃ e ∈ facts, selects e ∧ columns.map (get · e) = r

def scanOf (columns : List F) (bpt : List Tuple) : IndexScan :=
  ⟨bpt, columns.map fun f => ScanRange.get (pattern f) (assigned inputs (pattern f))⟩

end

theorem setInputVar_assigned (vars vars' : List Nat) (id : Id) :
    setInputVar vars' (assigned vars id) id = assigned (vars ++ vars') id := by
  cases id with
  | object o => rfl
  | var v =>
    by_cases hv : v ∈ vars' <;> simp [setInputVar, assigned, hv]

theorem eq_filter_append {α : Type} {p : α → Bool} {l : List α}
    (h : l.Pairwise fun a c => p c = true → p a = true) :
    l = l.filter p ++ l.filter fun a => !p a := by
  induction l with
  | nil => rfl
  | cons a l ih =>
    obtain ⟨ha, hl⟩ := List.pairwise_cons.mp h
    by_cases hp : p a = true
    · simp only [List.filter_cons, hp, if_true, Bool.not_true, Bool.false_eq_true, if_false,
        List.cons_append]
      rw [← ih hl]
    · have hnone : ∀ c ∈ l, p c = false := by
        intro c hc
        exact Bool.eq_false_iff.mpr fun h => hp (ha c hc h)
      have hknown : l.filter p = [] := by
        simp only [List.filter_eq_nil_iff]
        intro c hc
        simp [hnone c hc]
      have hfree : l.filter (fun a => !p a) = l := by
        rw [List.filter_eq_self]
        intro c hc
        simp [hnone c hc]
      simp [hp, hknown, hfree]

theorem mem_range {bpt : List Tuple} (hordered : bpt.Pairwise (· < ·)) {min max r : Tuple} :
    r ∈ (bpt.dropWhile (· < min)).takeWhile (fun r => ¬ max < r) ↔ r ∈ bpt ∧ ¬ r < min ∧ ¬ max < r := by
  have hsorted : bpt.Pairwise (· < ·) → ∀ r, r ∈ bpt.dropWhile (· < min) ↔ r ∈ bpt ∧ ¬ r < min := by
    intro h r
    induction bpt with
    | nil => simp
    | cons s bpt ih =>
      obtain ⟨hs, hbpt⟩ := List.pairwise_cons.mp h
      rw [List.dropWhile_cons]
      by_cases hmin : s < min
      · simp only [hmin, decide_true, if_true, ih hbpt hbpt, List.mem_cons]
        constructor
        · exact fun ⟨hr, hrmin⟩ => ⟨.inr hr, hrmin⟩
        · intro ⟨hr, hrmin⟩
          rcases hr with rfl | hr
          · exact absurd hmin hrmin
          · exact ⟨hr, hrmin⟩
      · simp only [hmin, decide_false, Bool.false_eq_true, if_false, List.mem_cons]
        constructor
        · intro hr
          refine ⟨hr, ?_⟩
          rcases hr with rfl | hr
          · exact hmin
          · exact fun hlt => hmin ((hs r hr).trans hlt)
        · exact fun h => h.1
  rw [← and_assoc, ← hsorted hordered r]
  have hrest : (bpt.dropWhile (· < min)).Pairwise (· < ·) :=
    hordered.sublist (List.dropWhile_sublist _)
  generalize bpt.dropWhile (· < min) = rest at hrest
  induction rest with
  | nil => simp
  | cons s rest ih =>
    obtain ⟨hs, hrest⟩ := List.pairwise_cons.mp hrest
    rw [List.takeWhile_cons]
    by_cases hmax : max < s
    · simp only [hmax, not_true_eq_false, decide_false, Bool.false_eq_true, if_false, List.not_mem_nil,
        false_iff, not_and, not_not, List.mem_cons]
      intro hr
      rcases hr with rfl | hr
      · exact hmax
      · exact hmax.trans (hs r hr)
    · simp only [hmax, not_false_eq_true, decide_true, if_true, List.mem_cons, ih hrest]
      constructor
      · intro hr
        rcases hr with rfl | hr
        · exact ⟨.inl rfl, hmax⟩
        · exact ⟨.inr hr.1, hr.2⟩
      · intro ⟨hr, hrmax⟩
        rcases hr with rfl | hr
        · exact .inl rfl
        · exact .inr ⟨hr, hrmax⟩

/-- Between a prefix filled up with zeros and the prefix filled up with the largest id are the
records that start with it. -/
theorem between_iff {known rest : Tuple} (hrest : ∀ id ∈ rest, id < 2 ^ 64) {start : Tuple}
    (hlength : start.length = known.length) :
    ¬ start ++ rest < known ++ List.replicate rest.length 0 ∧
        ¬ known ++ List.replicate rest.length (2 ^ 64 - 1) < start ++ rest ↔ start = known := by
  induction start generalizing known with
  | nil =>
    have hnil : known = [] := List.length_eq_zero_iff.mp hlength.symm
    subst hnil
    simp only [List.nil_append, iff_true]
    induction rest with
    | nil => simp
    | cons id rest ih =>
      obtain ⟨hid, hrest⟩ := List.forall_mem_cons.mp hrest
      obtain ⟨hmin, hmax⟩ := ih hrest
      simp only [List.length_cons, List.replicate_succ, List.cons_lt_cons_iff, not_or, not_and]
      exact ⟨⟨by omega, fun _ => hmin⟩, by omega, fun _ => hmax⟩
  | cons a start ih =>
    cases known with
    | nil => simp at hlength
    | cons k known =>
      simp only [List.cons_append, List.cons_lt_cons_iff, not_or, not_and, List.cons.injEq]
      rw [← ih (show start.length = known.length by simpa using hlength)]
      constructor
      · intro ⟨⟨hak, hmin⟩, hka, hmax⟩
        have heq : a = k := by omega
        exact ⟨heq, hmin heq, hmax heq.symm⟩
      · intro ⟨heq, hmin, hmax⟩
        exact ⟨⟨by omega, fun _ => hmin⟩, by omega, fun _ => hmax⟩

section

variable {F E : Type} {get : F → E → Nat} {pattern : F → Id} {inputs : List Nat} {facts : Set E}
  {selects : E → Prop} {columns known free : List F} {bpt : List Tuple} {b : Binding}

def rowOf (get : F → E → Nat) (pattern : F → Id) (inputs : List Nat) (columns : List F) (b : Binding)
    (e : E) : Binding :=
  assign (scanOf pattern inputs columns []).ranges (columns.map (get · e)) b

def Scanned (get : F → E → Nat) (pattern : F → Id) (selects : E → Prop) (known : List F) (b : Binding)
    (e : E) : Prop :=
  selects e ∧ ∀ f ∈ known, value b (pattern f) = get f e

theorem ends_of_assigned {id : Id} (hid : assigned inputs id = true) :
    (ScanRange.get id (assigned inputs id)).getMin b = value b id ∧
      (ScanRange.get id (assigned inputs id)).getMax b = value b id := by
  cases id with
  | object o => exact ⟨rfl, rfl⟩
  | var v =>
    rw [hid]
    exact ⟨rfl, rfl⟩

theorem ends_of_free {id : Id} (hid : assigned inputs id = false) :
    (ScanRange.get id (assigned inputs id)).getMin b = 0 ∧
      (ScanRange.get id (assigned inputs id)).getMax b = 2 ^ 64 - 1 := by
  cases id with
  | object o => cases hid
  | var v =>
    rw [hid]
    exact ⟨rfl, rfl⟩

theorem exists_rows (hholds : Holds get facts selects (known ++ free) bpt)
    (hknown : ∀ f ∈ known, assigned inputs (pattern f) = true)
    (hfree : ∀ f ∈ free, assigned inputs (pattern f) = false)
    (hsmall : ∀ e ∈ facts, ∀ f, get f e < 2 ^ 64) :
    ∃ records : List Tuple, Yields (scanOf pattern inputs (known ++ free) bpt).next
        ((scanOf pattern inputs (known ++ free) bpt).begin b)
        (records.map fun r => assign (scanOf pattern inputs (known ++ free) []).ranges r b) ∧
      records.Nodup ∧ ∀ r, r ∈ records ↔
        ∃ e ∈ facts, Scanned get pattern selects known b e ∧ (known ++ free).map (get · e) = r := by
  have hwidth : ∀ r ∈ bpt, r.length = (scanOf pattern inputs (known ++ free) bpt).ranges.length := by
    intro r hr
    obtain ⟨e, -, -, rfl⟩ := (hholds.mem r).mp hr
    simp [scanOf]
  have hmin : (scanOf pattern inputs (known ++ free) bpt).ranges.map (·.getMin b) =
      known.map (fun f => value b (pattern f)) ++ List.replicate free.length 0 := by
    simp only [scanOf, List.map_map, List.map_append]
    congr 1
    · exact List.map_congr_left fun f hf => (ends_of_assigned (hknown f hf)).1
    · rw [List.eq_replicate_iff]
      simp only [List.length_map, List.mem_map, true_and]
      intro _ ⟨f, hf, heq⟩
      rw [← heq]
      exact (ends_of_free (hfree f hf)).1
  have hmax : (scanOf pattern inputs (known ++ free) bpt).ranges.map (·.getMax b) =
      known.map (fun f => value b (pattern f)) ++ List.replicate free.length (2 ^ 64 - 1) := by
    simp only [scanOf, List.map_map, List.map_append]
    congr 1
    · exact List.map_congr_left fun f hf => (ends_of_assigned (hknown f hf)).2
    · rw [List.eq_replicate_iff]
      simp only [List.length_map, List.mem_map, true_and]
      intro _ ⟨f, hf, heq⟩
      rw [← heq]
      exact (ends_of_free (hfree f hf)).2
  refine ⟨_, IndexScan.yields_rows _ b hwidth, ?_, fun r => ?_⟩
  · have hnodup : bpt.Nodup := hholds.ordered.imp fun h => h.ne
    exact (hnodup.sublist (List.dropWhile_sublist _)).sublist (List.takeWhile_sublist _)
  · rw [mem_range (show (scanOf pattern inputs (known ++ free) bpt).bpt.Pairwise (· < ·) from
      hholds.ordered), hmin, hmax]
    have hbetween : ∀ e ∈ facts, (¬ (known ++ free).map (get · e) <
          known.map (fun f => value b (pattern f)) ++ List.replicate free.length 0 ∧
        ¬ known.map (fun f => value b (pattern f)) ++ List.replicate free.length (2 ^ 64 - 1) <
          (known ++ free).map (get · e) ↔ ∀ f ∈ known, value b (pattern f) = get f e) := by
      intro e he
      have hcount : free.length = (free.map (get · e)).length := by simp
      rw [List.map_append, hcount, between_iff (by simpa using fun f _ => hsmall e he f) (by simp),
        List.map_inj_left]
      exact forall₂_congr fun f _ => eq_comm
    constructor
    · intro ⟨hr, hends⟩
      obtain ⟨e, he, hselects, rfl⟩ := (hholds.mem r).mp hr
      exact ⟨e, he, ⟨hselects, (hbetween e he).mp hends⟩, rfl⟩
    · intro ⟨e, he, ⟨hselects, hvalues⟩, hr⟩
      subst hr
      exact ⟨(hholds.mem _).mpr ⟨e, he, hselects, rfl⟩, (hbetween e he).mpr hvalues⟩

theorem rowOf_input {e : E} {v : Nat} (hv : v ∈ inputs) :
    rowOf get pattern inputs columns b e v = b v := by
  have hnot : .unassignedVar v ∉ (scanOf pattern inputs columns []).ranges := by
    intro hmem
    obtain ⟨f, -, heq⟩ := List.mem_map.mp hmem
    cases hf : pattern f with
    | object o => simp [hf, ScanRange.get] at heq
    | var u =>
      by_cases hu : u ∈ inputs
      · simp [hf, assigned, hu, ScanRange.get] at heq
      · simp only [hf, assigned, hu, decide_false, ScanRange.get, ScanRange.unassignedVar.injEq] at heq
        exact hu (heq ▸ hv)
  have hnone : written (scanOf pattern inputs columns []).ranges (columns.map (get · e)) v = none := by
    rw [← Option.not_isSome_iff_eq_none, isSome_written (by simp [scanOf])]
    exact hnot
  rw [rowOf, assign_apply, hnone]
  rfl

theorem value_of_assigned {id : Id} {b' : Binding} (hid : assigned inputs id = true)
    (hb : ∀ v ∈ inputs, b' v = b v) : value b' id = value b id := by
  cases id with
  | object o => rfl
  | var v => exact hb v (of_decide_eq_true hid)

theorem Matches.scanned {e : E} (h : Matches get pattern inputs b e)
    (hselects : ∀ e, (∀ f g, pattern f = pattern g → get f e = get g e) → selects e)
    (hknown : ∀ f ∈ known, assigned inputs (pattern f) = true) :
    Scanned get pattern selects known b e := by
  obtain ⟨b', hb, hvalue⟩ := h
  refine ⟨hselects e fun f g hfg => ?_, fun f hf => ?_⟩
  · rw [← hvalue f, ← hvalue g, hfg]
  · rw [← value_of_assigned (hknown f hf) hb, hvalue f]

theorem returns_of_rows (hholds : Holds get facts selects (known ++ free) bpt)
    (hknown : ∀ f ∈ known, assigned inputs (pattern f) = true)
    (hfree : ∀ f ∈ free, assigned inputs (pattern f) = false)
    (hsmall : ∀ e ∈ facts, ∀ f, get f e < 2 ^ 64)
    (hselects : ∀ e, (∀ f g, pattern f = pattern g → get f e = get g e) → selects e)
    (hrow : ∀ e ∈ facts, Scanned get pattern selects known b e →
      ∀ f, value (rowOf get pattern inputs (known ++ free) b e) (pattern f) = get f e) :
    ∃ rows, Yields (scanOf pattern inputs (known ++ free) bpt).next
        ((scanOf pattern inputs (known ++ free) bpt).begin b) rows ∧
      Returns get pattern inputs facts b rows := by
  obtain ⟨records, hyields, hnodup, hmem⟩ := exists_rows (b := b) hholds hknown hfree hsmall
  refine ⟨_, hyields, ?_, fun fields => ?_⟩
  · rw [List.map_map]
    apply hnodup.map_on
    intro r hr r' hr' heq
    obtain ⟨e, he, hscanned, rfl⟩ := (hmem r).mp hr
    obtain ⟨e', he', hscanned', rfl⟩ := (hmem r').mp hr'
    apply List.map_congr_left
    intro f _
    rw [← hrow e he hscanned f, ← hrow e' he' hscanned' f]
    exact congrFun heq f
  · rw [List.map_map, List.mem_map]
    constructor
    · intro ⟨r, hr, heq⟩
      obtain ⟨e, he, hscanned, rfl⟩ := (hmem r).mp hr
      have hfields : (fun f => get f e) = fields := by
        rw [← heq]
        funext f
        exact (hrow e he hscanned f).symm
      exact ⟨e, he, hfields, _, fun v hv => rowOf_input hv, hrow e he hscanned⟩
    · intro ⟨e, he, hfields, hmatches⟩
      have hscanned := hmatches.scanned hselects hknown
      refine ⟨_, (hmem _).mpr ⟨e, he, hscanned, rfl⟩, ?_⟩
      rw [← hfields]
      funext f
      exact hrow e he hscanned f

theorem written_last {ranges : List ScanRange} {ids : Tuple} (hlength : ranges.length = ids.length)
    (v id : Nat) : written (ranges ++ [.unassignedVar v]) (ids ++ [id]) v = some id := by
  induction ranges generalizing ids with
  | nil =>
    have hnil : ids = [] := List.length_eq_zero_iff.mp hlength.symm
    subst hnil
    simp [written]
  | cons range ranges ih =>
    cases ids with
    | nil => simp at hlength
    | cons o ids =>
      rw [List.cons_append, List.cons_append, written, ih (by simpa using hlength)]
      rfl

theorem rowOf_last {e : E} {f : F} {v : Nat} (hpattern : pattern f = .var v) (hv : v ∉ inputs) :
    rowOf get pattern inputs (columns ++ [f]) b e v = get f e := by
  have hrange : ScanRange.get (pattern f) (assigned inputs (pattern f)) = .unassignedVar v := by
    simp [hpattern, assigned, hv, ScanRange.get]
  rw [rowOf, assign_apply]
  simp only [scanOf, List.map_append, List.map_cons, List.map_nil, hrange]
  rw [written_last (by simp)]
  rfl

theorem rowOf_free {e : E} {f : F} {v : Nat} (hf : f ∈ columns) (hpattern : pattern f = .var v)
    (hv : v ∉ inputs) (hother : ∀ g ∈ columns, pattern g = .var v → get g e = get f e) :
    rowOf get pattern inputs columns b e v = get f e := by
  rw [rowOf, assign_apply]
  have hwritten : ∀ columns : List F, (∀ g ∈ columns, pattern g = .var v → get g e = get f e) →
      ∀ o ∈ written (scanOf pattern inputs columns []).ranges (columns.map (get · e)) v, o = get f e := by
    intro columns
    induction columns with
    | nil => simp [written, scanOf]
    | cons g columns ih =>
      intro hother o ho
      obtain ⟨hg, hother⟩ := List.forall_mem_cons.mp hother
      simp only [scanOf, List.map_cons, written, Option.mem_def, Option.or_eq_some_iff] at ho
      rcases ho with ho | ⟨-, ho⟩
      · exact ih hother o ho
      · split_ifs at ho with hrange
        rw [← Option.some.inj ho]
        apply hg
        cases hpg : pattern g with
        | object o => simp [hpg, ScanRange.get] at hrange
        | var u =>
          by_cases hu : u ∈ inputs
          · simp [hpg, assigned, hu, ScanRange.get] at hrange
          · simp only [hpg, assigned, hu, decide_false, ScanRange.get,
              ScanRange.unassignedVar.injEq] at hrange
            rw [hrange]
  have hsome : (written (scanOf pattern inputs columns []).ranges (columns.map (get · e)) v).isSome := by
    rw [isSome_written (by simp [scanOf])]
    refine List.mem_map.mpr ⟨f, hf, ?_⟩
    simp [hpattern, assigned, hv, ScanRange.get]
  obtain ⟨o, ho⟩ := Option.isSome_iff_exists.mp hsome
  rw [ho, Option.getD_some]
  exact hwritten columns hother o ho

/-- The row of a scanned fact has its fields when every field is one of the columns and no two
columns that are not bound have one variable. -/
theorem value_rowOf {e : E} (hscanned : Scanned get pattern selects known b e)
    (hknown : ∀ f ∈ known, assigned inputs (pattern f) = true)
    (hfree : ∀ f ∈ free, assigned inputs (pattern f) = false)
    (hcover : ∀ f, ∃ g ∈ known ++ free, pattern f = pattern g ∧ get f e = get g e)
    (hdistinct : ∀ f ∈ free, ∀ g ∈ free, pattern f = pattern g → get f e = get g e) (f : F) :
    value (rowOf get pattern inputs (known ++ free) b e) (pattern f) = get f e := by
  obtain ⟨g, hg, hpattern, hget⟩ := hcover f
  rw [hpattern, hget]
  rcases List.mem_append.mp hg with hgk | hgf
  · rw [← hscanned.2 g hgk]
    exact value_of_assigned (hknown g hgk) fun v hv => rowOf_input hv
  · have hassigned := hfree g hgf
    cases hpg : pattern g with
    | object o => simp [hpg, assigned] at hassigned
    | var v =>
      have hv : v ∉ inputs := by
        rw [hpg] at hassigned
        exact of_decide_eq_false hassigned
      refine rowOf_free hg hpg hv fun h hh hph => ?_
      rcases List.mem_append.mp hh with hhk | hhf
      · have hah := hknown h hhk
        rw [hph, ← hpg, hassigned] at hah
        exact absurd hah (by decide)
      · exact hdistinct h hhf g hgf (hph.trans hpg.symm)

theorem exists_rows_of_columns (hholds : Holds get facts selects columns bpt)
    (hfirst : columns.Pairwise fun f g =>
      assigned inputs (pattern g) = true → assigned inputs (pattern f) = true)
    (hsmall : ∀ e ∈ facts, ∀ f, get f e < 2 ^ 64) :
    ∃ records : List Tuple, Yields (scanOf pattern inputs columns bpt).next
        ((scanOf pattern inputs columns bpt).begin b)
        (records.map fun r => assign (scanOf pattern inputs columns []).ranges r b) ∧
      records.Nodup ∧ ∀ r, r ∈ records ↔ ∃ e ∈ facts, Scanned get pattern selects
        (columns.filter fun f => assigned inputs (pattern f)) b e ∧ columns.map (get · e) = r := by
  have hsplit := eq_filter_append hfirst
  have hrows := exists_rows (b := b) (hsplit ▸ hholds)
    (fun f hf => (List.mem_filter.mp hf).2) (fun f hf => by simpa using (List.mem_filter.mp hf).2) hsmall
  rwa [← hsplit] at hrows

theorem returns_of_columns (hholds : Holds get facts selects columns bpt)
    (hfirst : columns.Pairwise fun f g =>
      assigned inputs (pattern g) = true → assigned inputs (pattern f) = true)
    (hsmall : ∀ e ∈ facts, ∀ f, get f e < 2 ^ 64)
    (hselects : ∀ e, (∀ f g, pattern f = pattern g → get f e = get g e) → selects e)
    (hcover : ∀ e, selects e → ∀ f, ∃ g ∈ columns, pattern f = pattern g ∧ get f e = get g e)
    (hdistinct : ∀ e ∈ facts, Scanned get pattern selects
        (columns.filter fun f => assigned inputs (pattern f)) b e → ∀ f ∈ columns, ∀ g ∈ columns,
      assigned inputs (pattern f) = false → pattern f = pattern g → get f e = get g e) :
    ∃ rows, Yields (scanOf pattern inputs columns bpt).next
        ((scanOf pattern inputs columns bpt).begin b) rows ∧
      Returns get pattern inputs facts b rows := by
  have hsplit := eq_filter_append hfirst
  have hknown : ∀ f ∈ columns.filter (fun f => assigned inputs (pattern f)),
      assigned inputs (pattern f) = true := fun f hf => (List.mem_filter.mp hf).2
  have hfree : ∀ f ∈ columns.filter (fun f => !assigned inputs (pattern f)),
      assigned inputs (pattern f) = false := fun f hf => by simpa using (List.mem_filter.mp hf).2
  rw [hsplit] at hholds hcover ⊢
  refine returns_of_rows hholds hknown hfree hsmall hselects fun e he hscanned f => ?_
  refine value_rowOf hscanned hknown hfree (hcover e hscanned.1) (fun f hf g hg => ?_) f
  exact hdistinct e he hscanned f (List.mem_filter.mp hf).1 g (List.mem_filter.mp hg).1 (hfree f hf)

end

end Scans
end MillenniumDB
