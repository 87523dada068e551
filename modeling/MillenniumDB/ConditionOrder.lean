import MillenniumDB.WhereConditions

/-!
# The order of conditions

`BindingExprAnd` and `BindingExprOr` stop at the first operand that decides, and an operand that
is neither true nor false decides for null.  The values that an expression takes when the operands
inside it are permuted are computed from the values of its atoms.
-/

namespace MillenniumDB
namespace Match

namespace BindingExpr

section

variable {C : Type}

inductive Reordered : BindingExpr C → BindingExpr C → Prop
  | and {es fs} : es.Perm fs → Reordered (.and es) (.and fs)
  | or {es fs} : es.Perm fs → Reordered (.or es) (.or fs)
  | andOperand {e e'} (es fs) : Reordered e e' →
      Reordered (.and (es ++ e :: fs)) (.and (es ++ e' :: fs))
  | orOperand {e e'} (es fs) : Reordered e e' →
      Reordered (.or (es ++ e :: fs)) (.or (es ++ e' :: fs))
  | not {e e'} : Reordered e e' → Reordered (.not e) (.not e')
  | unary {e e'} (op) : Reordered e e' → Reordered (.unary op e) (.unary op e')
  | binaryLhs {e e'} (op f) : Reordered e e' → Reordered (.binary op e f) (.binary op e' f)
  | binaryRhs {e e'} (op f) : Reordered e e' → Reordered (.binary op f e) (.binary op f e')
  | equalsLhs {e e'} (f) : Reordered e e' → Reordered (.equals e f) (.equals e' f)
  | equalsRhs {e e'} (f) : Reordered e e' → Reordered (.equals f e) (.equals f e')

def Rearranged : BindingExpr C → BindingExpr C → Prop := Relation.ReflTransGen Reordered

/-- AND for true, whose operands are passed over when they are true, and OR for false. -/
def connective : Bool → List (BindingExpr C) → BindingExpr C
  | true, es => .and es
  | false, es => .or es

end

section

variable {B C V : Type} [DecidableEq V] (O : Unions B C V)

/-- What the connective can do at an operand: return a value, or go on to the next one. -/
def decides (neutral : Bool) : Option V → List (Option (Option V))
  | none => [some none]
  | some v => O.ifEqual v neutral [none]
      (O.ifEqual v (!neutral) ((O.call (·.bool !neutral)).map some) [some (some O.null)])

/-- Some operand comes first that decides, or every operand is passed over. -/
def connectiveOutcomes (neutral : Bool) (operands : List (List (Option V))) : List (Option V) :=
  (operands.flatten.flatMap (decides O neutral)).filterMap id ++
    if ∀ vs ∈ operands, ∃ v ∈ vs, none ∈ decides O neutral v then O.call (·.bool neutral) else []

variable (r : Binding)

mutual

/-- The values of an expression on a row under the orders of its operands, with whatever bytes
the calls leave. -/
def outcomes : BindingExpr C → List (Option V)
  | nullptr => [none]
  | atomVar x => O.call (·.value (r.vars x))
  | atomProperty x key => O.call (·.value (r.properties (x, key)))
  | atomConstant c => O.call (·.constant c)
  | binary op lhs rhs => lhs.outcomes.flatMap fun v => rhs.outcomes.flatMap fun w =>
      O.left.map fun g => Option.map₂ ((O.objects g).binary op) v w
  | unary op expr => expr.outcomes.flatMap fun v =>
      O.left.map fun g => v.map ((O.objects g).unary op)
  | equals lhs rhs => lhs.outcomes.flatMap fun v => rhs.outcomes.flatMap fun w =>
      O.left.map fun g => Option.map₂ (fun v w => (O.objects g).bool (v = w)) v w
  | and andList => connectiveOutcomes O true (outcomesAll andList)
  | not expr => expr.outcomes.flatMap fun
    | none => [none]
    | some v => O.negate v
  | or orList => connectiveOutcomes O false (outcomesAll orList)

def outcomesAll : List (BindingExpr C) → List (List (Option V))
  | [] => []
  | e :: es => e.outcomes :: outcomesAll es

end

/-- `Where`: the rows of the child that it can return. -/
def rowsWhere (e : BindingExpr C) : List Binding → List (List Binding)
  | [] => [[]]
  | r :: rows => (e.passes O r).flatMap fun passes =>
      (rowsWhere e rows).map fun found => if passes then r :: found else found

end

section

variable {B C V : Type} [DecidableEq V] {O : Unions B C V} {r : Binding} {neutral : Bool}
  {e e' : BindingExpr C} {es fs : List (BindingExpr C)} {v o : Option V}

omit [DecidableEq V] in
theorem canDiffer_of_canEqual {v : V} {b : Bool} (hv : O.CanEqual v b) : O.CanDiffer v !b := by
  obtain ⟨g, hg, rfl⟩ := hv
  refine ⟨g, hg, fun heq => ?_⟩
  have hb := (O.written_bool g g b !b).mp (by rw [heq])
  simp at hb

theorem none_mem_decides {v : V} : none ∈ decides O neutral (some v) ↔ O.CanEqual v neutral := by
  simp [decides, mem_ifEqual]

theorem some_mem_decides {v : V} : some o ∈ decides O neutral (some v) ↔
    O.CanEqual v (!neutral) ∧ o ∈ O.call (·.bool !neutral) ∨
      O.CanDiffer v neutral ∧ O.CanDiffer v (!neutral) ∧ o = some O.null := by
  have hdiffer : O.CanEqual v (!neutral) → O.CanDiffer v neutral := by
    simpa using canDiffer_of_canEqual (O := O) (v := v) (b := !neutral)
  simp only [decides, mem_ifEqual, List.mem_singleton, reduceCtorEq, and_false, false_or,
    List.mem_map, Option.some.injEq, exists_eq_right]
  tauto

theorem mem_evalsAnd_cons : o ∈ evalsAnd O r (e :: es) ↔ ∃ v ∈ e.evals O r,
    some o ∈ decides O true v ∨ none ∈ decides O true v ∧ o ∈ evalsAnd O r es := by
  rw [evalsAnd, List.mem_flatMap]
  refine exists_congr fun v => and_congr_right fun _ => ?_
  cases v with
  | none => simp [decides]
  | some v =>
    have hdiffer := canDiffer_of_canEqual (O := O) (v := v) (b := false)
    rw [none_mem_decides, some_mem_decides]
    simp only [mem_ifEqual, List.mem_singleton, Bool.not_true]
    simp only [Bool.not_false] at hdiffer
    tauto

theorem mem_evalsOr_cons : o ∈ evalsOr O r (e :: es) ↔ ∃ v ∈ e.evals O r,
    some o ∈ decides O false v ∨ none ∈ decides O false v ∧ o ∈ evalsOr O r es := by
  rw [evalsOr, List.mem_flatMap]
  refine exists_congr fun v => and_congr_right fun _ => ?_
  cases v with
  | none => simp [decides]
  | some v =>
    have hdiffer := canDiffer_of_canEqual (O := O) (v := v) (b := false)
    rw [none_mem_decides, some_mem_decides]
    simp only [mem_ifEqual, List.mem_singleton, Bool.not_false]
    simp only [Bool.not_false] at hdiffer
    tauto

theorem evals_nil : (connective neutral []).evals O r = O.call (·.bool neutral) := by
  cases neutral <;> rfl

theorem mem_evals_cons : o ∈ (connective neutral (e :: es)).evals O r ↔ ∃ v ∈ e.evals O r,
    some o ∈ decides O neutral v ∨
      none ∈ decides O neutral v ∧ o ∈ (connective neutral es).evals O r := by
  cases neutral with
  | true => exact mem_evalsAnd_cons
  | false => exact mem_evalsOr_cons

theorem outcomes_connective :
    (connective neutral es).outcomes O r = connectiveOutcomes O neutral (outcomesAll O r es) := by
  cases neutral <;> rfl

theorem outcomesAll_eq (es : List (BindingExpr C)) : outcomesAll O r es = es.map (outcomes O r) := by
  induction es with
  | nil => rfl
  | cons e es ih => rw [outcomesAll, ih, List.map_cons]

theorem mem_outcomes_connective : o ∈ (connective neutral es).outcomes O r ↔
    (∃ e ∈ es, ∃ v ∈ e.outcomes O r, some o ∈ decides O neutral v) ∨
      o ∈ O.call (·.bool neutral) ∧ ∀ e ∈ es, ∃ v ∈ e.outcomes O r, none ∈ decides O neutral v := by
  rw [outcomes_connective, outcomesAll_eq, connectiveOutcomes, List.mem_append, List.mem_filterMap]
  refine or_congr ?_ ?_
  · simp only [List.mem_flatMap, List.mem_flatten, List.mem_map, id, exists_eq_right]
    constructor
    · intro ⟨v, ⟨_, ⟨e, he, rfl⟩, hv⟩, h⟩
      exact ⟨e, he, v, hv, h⟩
    · intro ⟨e, he, v, hv, h⟩
      exact ⟨v, ⟨_, ⟨e, he, rfl⟩, hv⟩, h⟩
  · simp only [List.forall_mem_map]
    split_ifs with hall
    · simpa using fun _ => hall
    · simp [hall]

theorem evals_connective_subset (neutral : Bool) (hes : ∀ e ∈ es, ∀ o ∈ e.evals O r, o ∈ e.outcomes O r) :
    ∀ o ∈ (connective neutral es).evals O r, o ∈ (connective neutral es).outcomes O r := by
  induction es with
  | nil =>
    intro o ho
    rw [evals_nil] at ho
    exact mem_outcomes_connective.mpr (.inr ⟨ho, by simp⟩)
  | cons e es ih =>
    obtain ⟨he, hes⟩ := List.forall_mem_cons.mp hes
    intro o ho
    -- the first operand decides, or it leaves the outcome to the others
    obtain ⟨v, hv, hdecides | ⟨hpass, ho⟩⟩ := mem_evals_cons.mp ho
    · exact mem_outcomes_connective.mpr (.inl ⟨e, List.mem_cons_self, v, he v hv, hdecides⟩)
    · rcases mem_outcomes_connective.mp (ih hes o ho) with ⟨e', he', h⟩ | ⟨ho, hall⟩
      · exact mem_outcomes_connective.mpr (.inl ⟨e', List.mem_cons_of_mem _ he', h⟩)
      · exact mem_outcomes_connective.mpr
          (.inr ⟨ho, List.forall_mem_cons.mpr ⟨⟨v, he v hv, hpass⟩, hall⟩⟩)

theorem mem_outcomes_of_mem_evals (e : BindingExpr C) : ∀ o ∈ e.evals O r, o ∈ e.outcomes O r := by
  induction e using induct with
  | nullptr => exact fun _ => id
  | atomVar x => exact fun _ => id
  | atomProperty x key => exact fun _ => id
  | atomConstant c => exact fun _ => id
  | binary op lhs rhs ihl ihr =>
    intro o ho
    simp only [evals, outcomes, List.mem_flatMap] at ho ⊢
    obtain ⟨v, hv, w, hw, ho⟩ := ho
    exact ⟨v, ihl v hv, w, ihr w hw, ho⟩
  | unary op e ih =>
    intro o ho
    simp only [evals, outcomes, List.mem_flatMap] at ho ⊢
    obtain ⟨v, hv, ho⟩ := ho
    exact ⟨v, ih v hv, ho⟩
  | equals lhs rhs ihl ihr =>
    intro o ho
    simp only [evals, outcomes, List.mem_flatMap] at ho ⊢
    obtain ⟨v, hv, w, hw, ho⟩ := ho
    exact ⟨v, ihl v hv, w, ihr w hw, ho⟩
  | and es ih => exact evals_connective_subset true ih
  | not e ih =>
    intro o ho
    rw [evals, List.mem_flatMap] at ho
    rw [outcomes, List.mem_flatMap]
    obtain ⟨v, hv, ho⟩ := ho
    exact ⟨v, ih v hv, ho⟩
  | or es ih => exact evals_connective_subset false ih

def SameOutcomes (O : Unions B C V) (r : Binding) (e e' : BindingExpr C) : Prop :=
  ∀ o, o ∈ e.outcomes O r ↔ o ∈ e'.outcomes O r

theorem SameOutcomes.perm (neutral : Bool) (h : es.Perm fs) :
    SameOutcomes O r (connective neutral es) (connective neutral fs) := by
  intro o
  simp only [mem_outcomes_connective, h.mem_iff]

theorem SameOutcomes.operand (neutral : Bool) (h : SameOutcomes O r e e') (es fs : List (BindingExpr C)) :
    SameOutcomes O r (connective neutral (es ++ e :: fs)) (connective neutral (es ++ e' :: fs)) := by
  intro o
  simp only [mem_outcomes_connective, List.mem_append, List.mem_cons, or_imp, forall_and,
    forall_eq, or_and_right, exists_or, exists_eq_left, h _]

theorem Reordered.sameOutcomes (h : Reordered e e') : SameOutcomes O r e e' := by
  induction h with
  | and h => exact .perm true h
  | or h => exact .perm false h
  | andOperand es fs _ ih => exact ih.operand true es fs
  | orOperand es fs _ ih => exact ih.operand false es fs
  | not _ ih =>
    intro o
    simp only [outcomes, List.mem_flatMap, ih _]
  | unary op _ ih =>
    intro o
    simp only [outcomes, List.mem_flatMap, ih _]
  | binaryLhs op f _ ih =>
    intro o
    simp only [outcomes, List.mem_flatMap, ih _]
  | binaryRhs op f _ ih =>
    intro o
    simp only [outcomes, List.mem_flatMap, List.mem_map, ih _]
  | equalsLhs f _ ih =>
    intro o
    simp only [outcomes, List.mem_flatMap, ih _]
  | equalsRhs f _ ih =>
    intro o
    simp only [outcomes, List.mem_flatMap, List.mem_map, ih _]

theorem Rearranged.mem_outcomes (h : Rearranged e e') : ∀ o ∈ e'.evals O r, o ∈ e.outcomes O r := by
  have hsame : SameOutcomes O r e e' := by
    induction h with
    | refl => exact fun _ => Iff.rfl
    | tail _ hstep ih => exact fun o => (ih o).trans (hstep.sameOutcomes o)
  exact fun o ho => (hsame _).mpr (mem_outcomes_of_mem_evals e' o ho)

theorem Rearranged.lift (f : BindingExpr C → BindingExpr C)
    (hf : ∀ e e', Reordered e e' → Reordered (f e) (f e')) (h : Rearranged e e') :
    Rearranged (f e) (f e') :=
  Relation.ReflTransGen.lift f hf _ _ h

theorem Rearranged.operand (h : Rearranged e e') (es fs : List (BindingExpr C)) :
    Rearranged (connective neutral (es ++ e :: fs)) (connective neutral (es ++ e' :: fs)) := by
  refine Rearranged.lift (fun e => connective neutral (es ++ e :: fs)) (fun _ _ hstep => ?_) h
  cases neutral with
  | true => exact .andOperand es fs hstep
  | false => exact .orOperand es fs hstep

theorem Rearranged.perm (h : es.Perm fs) :
    Rearranged (connective neutral es) (connective neutral fs) := by
  cases neutral with
  | true => exact .single (.and h)
  | false => exact .single (.or h)

theorem exists_rearranged_forall (neutral : Bool) (P : BindingExpr C → Prop)
    (es fs : List (BindingExpr C)) (hes : ∀ e ∈ es, ∃ e', Rearranged e e' ∧ P e') :
    ∃ es', Rearranged (connective neutral (fs ++ es)) (connective neutral (fs ++ es')) ∧
      ∀ e ∈ es', P e := by
  induction es generalizing fs with
  | nil => exact ⟨[], .refl, by simp⟩
  | cons e es ih =>
    obtain ⟨⟨e', he', hp⟩, hes⟩ := List.forall_mem_cons.mp hes
    obtain ⟨es', hes', hall⟩ := ih (fs ++ [e']) hes
    refine ⟨e' :: es', ?_, List.forall_mem_cons.mpr ⟨hp, hall⟩⟩
    simp only [List.append_assoc, List.singleton_append] at hes'
    exact (he'.operand fs es).trans hes'

theorem mem_evals_of_forall (ho : o ∈ O.call (·.bool neutral))
    (hes : ∀ e ∈ es, ∃ v ∈ e.evals O r, none ∈ decides O neutral v) :
    o ∈ (connective neutral es).evals O r := by
  induction es with
  | nil => rwa [evals_nil]
  | cons e es ih =>
    obtain ⟨⟨v, hv, hpass⟩, hes⟩ := List.forall_mem_cons.mp hes
    exact mem_evals_cons.mpr ⟨v, hv, .inr ⟨hpass, ih hes⟩⟩

theorem exists_rearranged_connective (neutral : Bool)
    (hes : ∀ e ∈ es, ∀ v ∈ e.outcomes O r, ∃ e', Rearranged e e' ∧ v ∈ e'.evals O r)
    (ho : o ∈ (connective neutral es).outcomes O r) :
    ∃ e', Rearranged (connective neutral es) e' ∧ o ∈ e'.evals O r := by
  rcases mem_outcomes_connective.mp ho with ⟨e, he, v, hv, hdecides⟩ | ⟨ho, hall⟩
  · -- the operand that decides comes first
    obtain ⟨e', hrearranged, hv⟩ := hes e he v hv
    obtain ⟨l, m, rfl⟩ := List.append_of_mem he
    exact ⟨connective neutral (e' :: (l ++ m)),
      (hrearranged.operand l m).trans (Rearranged.perm List.perm_middle),
      mem_evals_cons.mpr ⟨v, hv, .inl hdecides⟩⟩
  · obtain ⟨es', hes', hpass⟩ := exists_rearranged_forall neutral
      (fun e => ∃ v ∈ e.evals O r, none ∈ decides O neutral v) es [] (fun e he => by
        obtain ⟨v, hv, hpass⟩ := hall e he
        obtain ⟨e', he', hv⟩ := hes e he v hv
        exact ⟨e', he', v, hv, hpass⟩)
    exact ⟨connective neutral es', hes', mem_evals_of_forall ho hpass⟩

theorem exists_rearranged (e : BindingExpr C) :
    ∀ o ∈ e.outcomes O r, ∃ e', Rearranged e e' ∧ o ∈ e'.evals O r := by
  induction e using induct with
  | nullptr => exact fun o ho => ⟨_, .refl, ho⟩
  | atomVar x => exact fun o ho => ⟨_, .refl, ho⟩
  | atomProperty x key => exact fun o ho => ⟨_, .refl, ho⟩
  | atomConstant c => exact fun o ho => ⟨_, .refl, ho⟩
  | binary op lhs rhs ihl ihr =>
    intro o ho
    simp only [outcomes, List.mem_flatMap] at ho
    obtain ⟨v, hv, w, hw, ho⟩ := ho
    obtain ⟨lhs', hl, hv⟩ := ihl v hv
    obtain ⟨rhs', hr, hw⟩ := ihr w hw
    have hlhs : Rearranged (binary op lhs rhs) (binary op lhs' rhs) :=
      Rearranged.lift (fun e => binary op e rhs) (fun _ _ => .binaryLhs op rhs) hl
    have hrhs : Rearranged (binary op lhs' rhs) (binary op lhs' rhs') :=
      Rearranged.lift (binary op lhs') (fun _ _ => .binaryRhs op lhs') hr
    refine ⟨_, hlhs.trans hrhs, ?_⟩
    simp only [evals, List.mem_flatMap]
    exact ⟨v, hv, w, hw, ho⟩
  | unary op e ih =>
    intro o ho
    simp only [outcomes, List.mem_flatMap] at ho
    obtain ⟨v, hv, ho⟩ := ho
    obtain ⟨e', he, hv⟩ := ih v hv
    refine ⟨_, Rearranged.lift (unary op) (fun _ _ => .unary op) he, ?_⟩
    simp only [evals, List.mem_flatMap]
    exact ⟨v, hv, ho⟩
  | equals lhs rhs ihl ihr =>
    intro o ho
    simp only [outcomes, List.mem_flatMap] at ho
    obtain ⟨v, hv, w, hw, ho⟩ := ho
    obtain ⟨lhs', hl, hv⟩ := ihl v hv
    obtain ⟨rhs', hr, hw⟩ := ihr w hw
    have hlhs : Rearranged (equals lhs rhs) (equals lhs' rhs) :=
      Rearranged.lift (fun e => equals e rhs) (fun _ _ => .equalsLhs rhs) hl
    have hrhs : Rearranged (equals lhs' rhs) (equals lhs' rhs') :=
      Rearranged.lift (equals lhs') (fun _ _ => .equalsRhs lhs') hr
    refine ⟨_, hlhs.trans hrhs, ?_⟩
    simp only [evals, List.mem_flatMap]
    exact ⟨v, hv, w, hw, ho⟩
  | and es ih => exact fun o ho => exists_rearranged_connective true ih ho
  | not e ih =>
    intro o ho
    rw [outcomes, List.mem_flatMap] at ho
    obtain ⟨v, hv, ho⟩ := ho
    obtain ⟨e', he, hv⟩ := ih v hv
    refine ⟨_, Rearranged.lift not (fun _ _ => .not) he, ?_⟩
    rw [evals, List.mem_flatMap]
    exact ⟨v, hv, ho⟩
  | or es ih => exact fun o ho => exists_rearranged_connective false ih ho

theorem rowsWhere_ne_nil (e : BindingExpr C) (rows : List Binding) : e.rowsWhere O rows ≠ [] := by
  induction rows with
  | nil => simp [rowsWhere]
  | cons r rows ih => exact flatMap_ne_nil (passes_ne_nil e) fun t => by simp [ih]

theorem exists_mem_rowsWhere {rows : List Binding} (hr : r ∈ rows) (htrue : true ∈ e.passes O r) :
    ∃ found ∈ e.rowsWhere O rows, r ∈ found := by
  induction rows with
  | nil => simp at hr
  | cons r' rows ih =>
    simp only [rowsWhere, List.mem_flatMap, List.mem_map]
    rcases List.mem_cons.mp hr with rfl | hr
    · obtain ⟨found, hfound⟩ := List.exists_mem_of_ne_nil _ (rowsWhere_ne_nil (O := O) e rows)
      exact ⟨_, ⟨true, htrue, found, hfound, rfl⟩, by simp⟩
    · obtain ⟨found, hfound, hmem⟩ := ih hr
      obtain ⟨t, ht⟩ := List.exists_mem_of_ne_nil _ (passes_ne_nil (O := O) (r := r') e)
      refine ⟨_, ⟨t, ht, found, hfound, rfl⟩, ?_⟩
      split_ifs
      · exact List.mem_cons_of_mem _ hmem
      · exact hmem

theorem exists_notMem_rowsWhere (rows : List Binding) (hfalse : false ∈ e.passes O r) :
    ∃ found ∈ e.rowsWhere O rows, r ∉ found := by
  induction rows with
  | nil => exact ⟨[], by simp [rowsWhere], by simp⟩
  | cons r' rows ih =>
    obtain ⟨found, hfound, hmem⟩ := ih
    simp only [rowsWhere, List.mem_flatMap, List.mem_map]
    by_cases hr : r' = r
    · -- every copy of the row is dropped
      subst hr
      exact ⟨_, ⟨false, hfalse, found, hfound, rfl⟩, by simpa using hmem⟩
    · obtain ⟨t, ht⟩ := List.exists_mem_of_ne_nil _ (passes_ne_nil (O := O) (r := r') e)
      refine ⟨_, ⟨t, ht, found, hfound, rfl⟩, ?_⟩
      split_ifs
      · simpa [Ne.symm hr] using hmem
      · exact hmem

theorem rowsWhere_eq {rows : List Binding} (h : ∀ r ∈ rows, ∀ t ∈ e.passes O r, ∀ t' ∈ e'.passes O r, t = t') :
    ∀ found ∈ e.rowsWhere O rows, ∀ found' ∈ e'.rowsWhere O rows, found = found' := by
  induction rows with
  | nil => simp [rowsWhere]
  | cons r rows ih =>
    obtain ⟨hr, hrows⟩ := List.forall_mem_cons.mp h
    simp only [rowsWhere, List.mem_flatMap, List.mem_map]
    rintro _ ⟨t, ht, found, hfound, rfl⟩ _ ⟨t', ht', found', hfound', rfl⟩
    rw [hr t ht t' ht', ih hrows found hfound found' hfound']

theorem exists_rearranged_passes (e : BindingExpr C) :
    ∀ t ∈ (e.outcomes O r).flatMap O.passes, ∃ e', Rearranged e e' ∧ t ∈ e'.passes O r := by
  intro t ht
  obtain ⟨o, ho, ht⟩ := List.mem_flatMap.mp ht
  obtain ⟨e', he', ho⟩ := exists_rearranged e o ho
  exact ⟨e', he', List.mem_flatMap_of_mem ho ht⟩

theorem Rearranged.mem_passes (h : Rearranged e e') :
    ∀ t ∈ e'.passes O r, t ∈ (e.outcomes O r).flatMap O.passes := by
  intro t ht
  obtain ⟨o, ho, ht⟩ := List.mem_flatMap.mp ht
  exact List.mem_flatMap_of_mem (h.mem_outcomes o ho) ht

/-- The value on a row is the same under every order exactly when there is one outcome, but for
bytes that are not written, and the rows that pass are the same exactly when on every row the
outcomes agree on whether it passes. -/
theorem rearranged_iff (O : Unions B C V) (e : BindingExpr C) :
    (∀ r, (∀ e', Rearranged e e' →
        ∀ o ∈ e.evals O r, ∀ o' ∈ e'.evals O r, o.map O.written = o'.map O.written) ↔
      ∀ o ∈ e.outcomes O r, ∀ o' ∈ e.outcomes O r, o.map O.written = o'.map O.written) ∧
    ∀ rows, (∀ e', Rearranged e e' →
        ∀ found ∈ e.rowsWhere O rows, ∀ found' ∈ e'.rowsWhere O rows, found = found') ↔
      ∀ r ∈ rows, ∀ t ∈ (e.outcomes O r).flatMap O.passes,
        ∀ t' ∈ (e.outcomes O r).flatMap O.passes, t = t' := by
  refine ⟨fun r => ⟨fun h o ho o' ho' => ?_, fun h e' he' o ho o' ho' => ?_⟩,
    fun rows => ⟨fun h r hr => ?_, fun h e' he' => ?_⟩⟩
  · obtain ⟨f, hf, ho⟩ := exists_rearranged e o ho
    obtain ⟨f', hf', ho'⟩ := exists_rearranged e o' ho'
    obtain ⟨v, hv⟩ := List.exists_mem_of_ne_nil _ (evals_ne_nil (O := O) (r := r) e)
    exact (h f hf v hv o ho).symm.trans (h f' hf' v hv o' ho')
  · exact h o (mem_outcomes_of_mem_evals e o ho) o' (he'.mem_outcomes o' ho')
  · -- a row that can pass in one order and be dropped in another
    have hne : true ∈ (e.outcomes O r).flatMap O.passes → false ∉ (e.outcomes O r).flatMap O.passes := by
      intro htrue hfalse
      obtain ⟨f, hf, htrue⟩ := exists_rearranged_passes e _ htrue
      obtain ⟨f', hf', hfalse⟩ := exists_rearranged_passes e _ hfalse
      obtain ⟨found, hfound, hmem⟩ := exists_mem_rowsWhere hr htrue
      obtain ⟨found', hfound', hnotMem⟩ := exists_notMem_rowsWhere rows hfalse
      obtain ⟨rs, hrs⟩ := List.exists_mem_of_ne_nil _ (rowsWhere_ne_nil (O := O) e rows)
      rw [← h f hf rs hrs found hfound] at hmem
      rw [← h f' hf' rs hrs found' hfound'] at hnotMem
      exact hnotMem hmem
    intro t ht t' ht'
    cases t <;> cases t'
    · rfl
    · exact absurd ht (hne ht')
    · exact absurd ht' (hne ht)
    · rfl
  · exact rowsWhere_eq fun r hr t ht t' ht' =>
      h r hr t (Rearranged.mem_passes .refl t ht) t' (he'.mem_passes t' ht')

/-- Truth values with the bytes of their call, which finds zeros. -/
def truthValues : Unions Nat Bool (Option (Nat × Bool)) where
  left := [0]
  left_ne_nil := by simp
  objects g := {
    graphObject := fun _ => some (g, true)
    constant := fun b => some (g, b)
    null := none
    bool := fun b => some (g, b)
    binary := fun _ _ _ => none
    unary := fun _ _ => none
    true_ne_false := by simp
    null_ne_true := by simp
    constant_ne_null := by simp }
  written v := v.map (Prod.map (fun _ => 0) id)
  null := none
  objects_null _ := rfl
  bool_injective := by simp
  written_bool := by simp
  written_null := by simp
  written_graphObject := by simp
  written_constant := by simp
  written_binary := by simp
  written_unary := by simp

/-- `?x.flag OR ?x.a == ?x.b` on a row without these properties: the flag is null, and it hides
the equality that stands behind it. -/
theorem not_rearranged : ¬ ∀ (O : Unions Nat Bool (Option (Nat × Bool))) (e : BindingExpr Bool)
    (r : Binding) (e' : BindingExpr Bool), Rearranged e e' →
      (∀ o ∈ e.evals O r, ∀ o' ∈ e'.evals O r, o.map O.written = o'.map O.written) ∧
        ∀ found ∈ e.rowsWhere O [r], ∀ found' ∈ e'.rowsWhere O [r], found = found' := by
  intro h
  let flag : BindingExpr Bool := .atomProperty "?x" "flag"
  let equal : BindingExpr Bool := .equals (.atomProperty "?x" "a") (.atomProperty "?x" "b")
  obtain ⟨heval, -⟩ := h truthValues (.or [flag, equal]) ⟨fun _ => none, fun _ => none⟩
    (.or [equal, flag]) (.single (.or (.swap ..)))
  revert heval
  decide

end

end BindingExpr

end Match
end MillenniumDB
