import Mathlib.Data.Fintype.Basic
import Mathlib.Data.List.Find
import MillenniumDB.Lib.Runs

/-!
# The automaton of the quad-model import

`OnDiskImport` reads an import file token by token.  Its transitions live in one flat
table, filled by `create_automata` through `set_transition` and read by `get_transition`.
The table is addressed by `TOTAL_STATES * state + token`, with `TOTAL_STATES = 14` slots
a row although tokens run up to 15, so the last two columns of a row are the first two
of the next one.
-/

namespace MillenniumDB
namespace Import

/-- The states of `import/quad_model/lexer/state.h`. -/
inductive State
  | wrongLine | lineBegin | firstId | nodeDefined | expectNodeLabel | expectNodePropColon
  | expectNodePropValue | implicitEdge | expectEdgeSecond | expectEdgeTypeColon
  | expectEdgeType | edgeDefined | expectEdgePropColon | expectEdgePropValue
  deriving DecidableEq, Repr

/-- The number of a state in `enum State`. -/
def State.val : State → Nat
  | wrongLine => 0
  | lineBegin => 1
  | firstId => 2
  | nodeDefined => 3
  | expectNodeLabel => 4
  | expectNodePropColon => 5
  | expectNodePropValue => 6
  | implicitEdge => 7
  | expectEdgeSecond => 8
  | expectEdgeTypeColon => 9
  | expectEdgeType => 10
  | edgeDefined => 11
  | expectEdgePropColon => 12
  | expectEdgePropValue => 13

def totalStates : Nat := 14

/-- The states in the order of the loops `for (int s = 0; s < TOTAL_STATES; s++)`. -/
def State.all : List State :=
  [wrongLine, lineBegin, firstId, nodeDefined, expectNodeLabel, expectNodePropColon,
    expectNodePropValue, implicitEdge, expectEdgeSecond, expectEdgeTypeColon,
    expectEdgeType, edgeDefined, expectEdgePropColon, expectEdgePropValue]

instance : Fintype State := ⟨⟨State.all, by decide⟩, fun s => by cases s <;> decide⟩

/-- The tokens of `import/quad_model/lexer/lexer.h`; the number 0 stands for no more tokens. -/
inductive Token
  | colon | lArrow | rArrow | implicit | true | false | string | identifier | iri | anon
  | integer | float | whitespace | endline | unrecognized
  deriving DecidableEq, Repr

/-- The number of a token in `enum Token`. -/
def Token.val : Token → Nat
  | colon => 1
  | lArrow => 2
  | rArrow => 3
  | implicit => 4
  | true => 5
  | false => 6
  | string => 7
  | identifier => 8
  | iri => 9
  | anon => 10
  | integer => 11
  | float => 12
  | whitespace => 13
  | endline => 14
  | unrecognized => 15

def totalTokens : Nat := 16

def Token.all : List Token :=
  [colon, lArrow, rArrow, implicit, true, false, string, identifier, iri, anon, integer,
    float, whitespace, endline, unrecognized]

instance : Fintype Token := ⟨⟨Token.all, by decide⟩, fun t => by cases t <;> decide⟩

/-- The member functions of `OnDiskImport` that `create_automata` binds to transitions. -/
inductive Action
  | doNothing | setLeftDirection | setRightDirection
  | saveFirstIdIdentifier | saveFirstIdAnon | saveFirstIdString | saveFirstIdIri
  | saveFirstIdInt | saveFirstIdFloat | saveFirstIdTrue | saveFirstIdFalse
  | saveFirstIdImplicit | saveEdgeType | savePropKey
  | saveSecondIdIdentifier | saveSecondIdAnon | saveSecondIdString | saveSecondIdIri
  | saveSecondIdInt | saveSecondIdFloat | saveSecondIdTrue | saveSecondIdFalse
  | addNodeLabel
  | addNodePropString | addNodePropInt | addNodePropFloat | addNodePropTrue | addNodePropFalse
  | addEdgePropString | addEdgePropInt | addEdgePropFloat | addEdgePropTrue | addEdgePropFalse
  | finishWrongLine | finishNodeLine | finishEdgeLine | printError
  deriving DecidableEq, Repr

/-- The arguments of one call of `set_transition`. -/
structure Transition where
  state : State
  token : Nat
  value : State
  func : Action
  deriving DecidableEq, Repr

/-- What one slot holds: an element of `state_transitions` and one of `state_funcs`. -/
structure Slot where
  value : State
  func : Action
  deriving DecidableEq, Repr

/-- The two arrays together; `none` is a slot that was never written. -/
abbrev Table := Nat → Option Slot

def slotOf (state : State) (token : Nat) : Nat := totalStates * state.val + token

def setTransition (table : Table) (tr : Transition) : Table := fun i =>
  if i = slotOf tr.state tr.token then some ⟨tr.value, tr.func⟩ else table i

def getTransition (table : Table) (state : State) (token : Token) : Option Slot :=
  table (slotOf state token.val)

/-- The first loop of `create_automata`: every transition is an error at first. -/
def errorTransitions : List Transition :=
  State.all.flatMap fun s =>
    (List.range' 1 (totalTokens - 1)).map fun t => ⟨s, t, .wrongLine, .printError⟩

def whitespaceTransitions : List Transition :=
  State.all.map fun s => ⟨s, Token.whitespace.val, s, .doNothing⟩

def wrongLineTransitions : List Transition :=
  (List.range totalTokens).map (fun t => ⟨.wrongLine, t, .wrongLine, .doNothing⟩) ++
    [⟨.wrongLine, Token.endline.val, .lineBegin, .finishWrongLine⟩]

/-- One of the calls of `create_automata` that name their state and token. -/
def on (state : State) (token : Token) (value : State) (func : Action) : Transition :=
  ⟨state, token.val, value, func⟩

def lineTransitions : List Transition :=
  [on .lineBegin .identifier .firstId .saveFirstIdIdentifier,
    on .lineBegin .anon .firstId .saveFirstIdAnon,
    on .lineBegin .string .firstId .saveFirstIdString,
    on .lineBegin .iri .firstId .saveFirstIdIri,
    on .lineBegin .integer .firstId .saveFirstIdInt,
    on .lineBegin .float .firstId .saveFirstIdFloat,
    on .lineBegin .true .firstId .saveFirstIdTrue,
    on .lineBegin .false .firstId .saveFirstIdFalse,
    on .lineBegin .implicit .implicitEdge .saveFirstIdImplicit,
    on .firstId .colon .expectNodeLabel .doNothing,
    on .nodeDefined .colon .expectNodeLabel .doNothing,
    on .firstId .endline .lineBegin .finishNodeLine,
    on .nodeDefined .endline .lineBegin .finishNodeLine,
    on .expectNodeLabel .identifier .nodeDefined .addNodeLabel,
    on .firstId .identifier .expectNodePropColon .savePropKey,
    on .nodeDefined .identifier .expectNodePropColon .savePropKey,
    on .expectNodePropColon .colon .expectNodePropValue .doNothing,
    on .expectNodePropValue .string .nodeDefined .addNodePropString,
    on .expectNodePropValue .integer .nodeDefined .addNodePropInt,
    on .expectNodePropValue .float .nodeDefined .addNodePropFloat,
    on .expectNodePropValue .false .nodeDefined .addNodePropFalse,
    on .expectNodePropValue .true .nodeDefined .addNodePropTrue,
    on .implicitEdge .lArrow .expectEdgeSecond .setLeftDirection,
    on .implicitEdge .rArrow .expectEdgeSecond .setRightDirection,
    on .firstId .lArrow .expectEdgeSecond .setLeftDirection,
    on .firstId .rArrow .expectEdgeSecond .setRightDirection,
    on .expectEdgeSecond .identifier .expectEdgeTypeColon .saveSecondIdIdentifier,
    on .expectEdgeSecond .anon .expectEdgeTypeColon .saveSecondIdAnon,
    on .expectEdgeSecond .string .expectEdgeTypeColon .saveSecondIdString,
    on .expectEdgeSecond .iri .expectEdgeTypeColon .saveSecondIdIri,
    on .expectEdgeSecond .integer .expectEdgeTypeColon .saveSecondIdInt,
    on .expectEdgeSecond .float .expectEdgeTypeColon .saveSecondIdFloat,
    on .expectEdgeSecond .true .expectEdgeTypeColon .saveSecondIdTrue,
    on .expectEdgeSecond .false .expectEdgeTypeColon .saveSecondIdFalse,
    on .expectEdgeTypeColon .colon .expectEdgeType .doNothing,
    on .expectEdgeType .identifier .edgeDefined .saveEdgeType,
    on .edgeDefined .endline .lineBegin .finishEdgeLine,
    on .edgeDefined .identifier .expectEdgePropColon .savePropKey,
    on .expectEdgePropColon .colon .expectEdgePropValue .doNothing,
    on .expectEdgePropValue .string .edgeDefined .addEdgePropString,
    on .expectEdgePropValue .integer .edgeDefined .addEdgePropInt,
    on .expectEdgePropValue .float .edgeDefined .addEdgePropFloat,
    on .expectEdgePropValue .false .edgeDefined .addEdgePropFalse,
    on .expectEdgePropValue .true .edgeDefined .addEdgePropTrue]

/-- The transitions that `create_automata` declares after the loop of errors. -/
def declarations : List Transition :=
  whitespaceTransitions ++ wrongLineTransitions ++ lineTransitions

def createAutomata : Table :=
  (errorTransitions ++ declarations).foldl setTransition fun _ => none

/-- The state `get_transition` returns. -/
def nextState (state : State) (token : Token) : Option State :=
  (getTransition createAutomata state token).map Slot.value

def declaredNext (state : State) (token : Token) : Option State :=
  (declarations.reverse.find? fun tr => tr.state = state ∧ tr.token = token.val).map
    Transition.value

def Declared (state : State) (token : Token) : Prop := (declaredNext state token).isSome

instance (state : State) (token : Token) : Decidable (Declared state token) :=
  inferInstanceAs (Decidable (_ = _))

/-- The pair shares its slot with a declared pair: the token is the last one, and the state
that is next in number declares a transition on the first token. -/
def Aliased (state : State) (token : Token) : Prop :=
  token = .unrecognized ∧ ∃ s : State, s.val = state.val + 1 ∧ Declared s .colon

instance (state : State) (token : Token) : Decidable (Aliased state token) :=
  inferInstanceAs (Decidable (_ ∧ _))

def Step (s : State) (t : Token) (s' : State) : Prop := nextState s t = some s'

def DeclaredStep (s : State) (t : Token) (s' : State) : Prop := declaredNext s t = some s'

/-- An unrecognized token read as the colon of the state that is next in number. -/
def AliasStep (s : State) (t : Token) (s' : State) : Prop :=
  t = .unrecognized ∧ ∃ r : State, r.val = s.val + 1 ∧ DeclaredStep r .colon s'

/-- Steps that are declared, or read an unrecognized token as a colon. -/
def LooseStep (s : State) (t : Token) (s' : State) : Prop :=
  DeclaredStep s t s' ∨ AliasStep s t s'

instance (s : State) (t : Token) (s' : State) : Decidable (DeclaredStep s t s') :=
  inferInstanceAs (Decidable (_ = _))

instance (s : State) (t : Token) (s' : State) : Decidable (AliasStep s t s') :=
  inferInstanceAs (Decidable (_ ∧ _))

/-- The last call of `set_transition` for a slot decides what it holds. -/
theorem foldl_setTransition (trs : List Transition) (table : Table) (i : Nat) :
    trs.foldl setTransition table i =
      ((trs.reverse.find? fun tr => i = slotOf tr.state tr.token).map fun tr =>
        (⟨tr.value, tr.func⟩ : Slot)).or (table i) := by
  induction trs generalizing table with
  | nil => rfl
  | cons tr trs ih =>
    rw [List.foldl_cons, ih, List.reverse_cons, List.find?_append, setTransition]
    cases hfound : trs.reverse.find? fun tr => i = slotOf tr.state tr.token with
    | some tr' => rfl
    | none =>
      by_cases htr : i = slotOf tr.state tr.token
      · simp [htr]
      · simp [htr]

/-- What a slot holds: an error, unless a declaration writes it. -/
def slotAt (state : State) (token : Token) : Slot :=
  match declarations.reverse.find? fun tr => slotOf state token.val = slotOf tr.state tr.token with
  | some tr => ⟨tr.value, tr.func⟩
  | none => ⟨.wrongLine, .printError⟩

theorem errorTransition_mem (s : State) (t : Token) :
    ⟨s, t.val, .wrongLine, .printError⟩ ∈ errorTransitions := by
  have hs : s ∈ State.all := by cases s <;> decide
  have ht : t.val ∈ List.range' 1 (totalTokens - 1) := by cases t <;> decide
  exact List.mem_flatMap.mpr ⟨s, hs, List.mem_map.mpr ⟨t.val, ht, rfl⟩⟩

theorem foldl_errorTransitions (s : State) (t : Token) :
    errorTransitions.foldl setTransition (fun _ => none) (slotOf s t.val) =
      some ⟨.wrongLine, .printError⟩ := by
  rw [foldl_setTransition]
  cases hfound : errorTransitions.reverse.find? fun tr =>
      slotOf s t.val = slotOf tr.state tr.token with
  | none =>
    have hnone := List.find?_eq_none.mp hfound _ (List.mem_reverse.mpr (errorTransition_mem s t))
    exact absurd (decide_eq_true rfl) hnone
  | some tr =>
    have hmem := List.mem_reverse.mp (List.mem_of_find?_eq_some hfound)
    obtain ⟨s', _, htr⟩ := List.mem_flatMap.mp hmem
    obtain ⟨t', _, rfl⟩ := List.mem_map.mp htr
    rfl

theorem getTransition_createAutomata (s : State) (t : Token) :
    getTransition createAutomata s t = some (slotAt s t) := by
  rw [getTransition, createAutomata, List.foldl_append, foldl_setTransition,
    foldl_errorTransitions, slotAt]
  cases declarations.reverse.find? fun tr => slotOf s t.val = slotOf tr.state tr.token with
  | none => rfl
  | some tr => rfl

theorem State.val_injective {s s' : State} (h : s.val = s'.val) : s = s' := by
  revert s s'
  decide

theorem token_of_declaration : ∀ tr ∈ declarations, tr.token < totalTokens ∧
    (tr.state ≠ .wrongLine → 1 ≤ tr.token ∧ tr.token ≤ 14) := by
  decide +kernel

/-- Within the columns of a row a slot is only written for its own pair, but for the first slot of
the second row, which ends the first one. -/
theorem slotOf_eq_iff {s : State} {t : Token} {tr : Transition} (htr : tr ∈ declarations)
    (ht : t ≠ .unrecognized) (hfirst : ¬ (s = .lineBegin ∧ t = .colon)) :
    slotOf s t.val = slotOf tr.state tr.token ↔ tr.state = s ∧ tr.token = t.val := by
  constructor
  · intro h
    obtain ⟨hlt, hrow⟩ := token_of_declaration tr htr
    have hval : 1 ≤ t.val ∧ t.val ≤ 14 := by cases t <;> simp [Token.val] at ht ⊢
    have hpair : ¬ (s.val = 1 ∧ t.val = 1) := by
      intro ⟨hs, hcolon⟩
      exact hfirst ⟨State.val_injective hs, by cases t <;> simp [Token.val] at hcolon ⊢⟩
    unfold slotOf totalStates at h
    unfold totalTokens at hlt
    by_cases hwrong : tr.state = .wrongLine
    · have hzero : tr.state.val = 0 := congrArg State.val hwrong
      exact ⟨State.val_injective (by omega), by omega⟩
    · obtain ⟨hone, hle⟩ := hrow hwrong
      exact ⟨State.val_injective (by omega), by omega⟩
  · intro ⟨hs, ht⟩
    rw [hs, ht]

/-- Only the slot of an unrecognized token may hold more than what is declared for the pair. -/
theorem slotAt_value (s : State) (t : Token) : declaredNext s t = some (slotAt s t).value ∨
    declaredNext s t = none ∧ (t ≠ .unrecognized → (slotAt s t).value = .wrongLine) := by
  by_cases ht : t = .unrecognized
  · subst ht
    revert s
    decide +kernel
  · by_cases hfirst : s = .lineBegin ∧ t = .colon
    · obtain ⟨rfl, rfl⟩ := hfirst
      decide +kernel
    · have hfind : (declarations.reverse.find? fun tr =>
          slotOf s t.val = slotOf tr.state tr.token) =
          declarations.reverse.find? fun tr => tr.state = s ∧ tr.token = t.val := by
        apply List.find?_congr
        intro tr htr
        exact decide_eq_decide.mpr (slotOf_eq_iff (List.mem_reverse.mp htr) ht hfirst)
      rw [slotAt, declaredNext, hfind]
      cases declarations.reverse.find? fun tr => tr.state = s ∧ tr.token = t.val with
      | some tr => exact .inl rfl
      | none => exact .inr ⟨rfl, fun _ => rfl⟩

theorem slotAt_unrecognized (s : State) :
    (∃ r : State, r.val = s.val + 1 ∧ declaredNext r .colon = some (slotAt s .unrecognized).value) ∨
      (∀ r : State, r.val = s.val + 1 → ¬ Declared r .colon) ∧
        ((slotAt s .unrecognized).value = .wrongLine ∨ Declared s .unrecognized) := by
  revert s
  decide +kernel

/-- Every slot the automaton can read: the declared state, else the one of the aliased
colon, else the error state. -/
theorem nextState_cases (s : State) (t : Token) :
    (Declared s t ∧ nextState s t = declaredNext s t) ∨
      (¬ Declared s t ∧ t = .unrecognized ∧ ∃ r : State, r.val = s.val + 1 ∧
        Declared r .colon ∧ nextState s t = declaredNext r .colon) ∨
      (¬ Declared s t ∧ ¬ Aliased s t ∧ nextState s t = some .wrongLine) := by
  have hnext : nextState s t = some (slotAt s t).value := by
    rw [nextState, getTransition_createAutomata]
    rfl
  rw [hnext]
  rcases slotAt_value s t with hdeclared | ⟨hnone, hother⟩
  · refine .inl ⟨?_, hdeclared.symm⟩
    unfold Declared
    rw [hdeclared]
    rfl
  · have hnot : ¬ Declared s t := by
      unfold Declared
      rw [hnone]
      exact Bool.false_ne_true
    right
    by_cases ht : t = .unrecognized
    · subst ht
      rcases slotAt_unrecognized s with ⟨r, hr, hcolon⟩ | ⟨hnext, hvalue⟩
      · refine .inl ⟨hnot, rfl, r, hr, ?_, hcolon.symm⟩
        unfold Declared
        rw [hcolon]
        rfl
      · refine .inr ⟨hnot, fun ⟨_, r, hr, hcolon⟩ => hnext r hr hcolon, ?_⟩
        rw [hvalue.resolve_right hnot]
    · refine .inr ⟨hnot, fun haliased => ht haliased.1, ?_⟩
      rw [hother ht]

theorem declaredNext_ne_wrongLine (s : State) (t : Token) (hs : s ≠ .wrongLine) :
    declaredNext s t ≠ some .wrongLine := by
  have hvalue : ∀ tr ∈ declarations, tr.state ≠ .wrongLine → tr.value ≠ .wrongLine := by
    decide +kernel
  intro h
  obtain ⟨tr, hfound, hwrong⟩ := Option.map_eq_some_iff.mp h
  have hpair := List.find?_some hfound
  simp only [decide_eq_true_eq] at hpair
  apply hvalue tr (List.mem_reverse.mp (List.mem_of_find?_eq_some hfound)) ?_ hwrong
  rw [hpair.1]
  exact hs

theorem AliasStep.ne_wrongLine {s s' : State} {t : Token} (h : AliasStep s t s') :
    s' ≠ .wrongLine := by
  rintro rfl
  obtain ⟨-, r, hr, h⟩ := h
  refine declaredNext_ne_wrongLine r .colon ?_ h
  rintro rfl
  exact absurd hr (Nat.succ_ne_zero s.val).symm

theorem LooseStep.ne_wrongLine {s s' : State} {t : Token} (h : LooseStep s t s')
    (hs : s ≠ .wrongLine) : s' ≠ .wrongLine := by
  rcases h with h | h
  · rintro rfl
    exact declaredNext_ne_wrongLine s t hs h
  · exact h.ne_wrongLine

theorem declaredNext_wrongLine (t : Token) (ht : t ≠ .endline) :
    declaredNext .wrongLine t = some .wrongLine := by
  revert t
  decide +kernel

theorem DeclaredStep.declared {s s' : State} {t : Token} (h : DeclaredStep s t s') :
    Declared s t := by
  unfold Declared
  rw [h]
  rfl

theorem declaredStep_unique (s : State) (t : Token) (r r' : State) (h : DeclaredStep s t r)
    (h' : DeclaredStep s t r') : r = r' :=
  Option.some.inj (h.symm.trans h')

theorem AliasStep.aliased {s s' : State} {t : Token} (h : AliasStep s t s') : Aliased s t := by
  obtain ⟨rfl, r, hr, hs⟩ := h
  exact ⟨rfl, r, hr, hs.declared⟩

theorem Aliased.not_declared {s : State} {t : Token} (h : Aliased s t) : ¬ Declared s t := by
  revert s t
  decide +kernel

/-- The table follows the declarations, except that it also takes the aliased steps. -/
theorem step_iff {s s' : State} {t : Token} :
    Step s t s' ↔ LooseStep s t s' ∨ (¬ Declared s t ∧ ¬ Aliased s t ∧ s' = .wrongLine) := by
  have hval : ∀ {r r' : State}, r.val = r'.val → r = r' := by decide
  unfold Step
  rcases nextState_cases s t with ⟨hd, hn⟩ | ⟨hd, rfl, r, hr, hrd, hn⟩ | ⟨hd, ha, hn⟩
  · rw [hn]
    constructor
    · exact fun h => .inl (.inl h)
    · rintro ((h | h) | ⟨h, -⟩)
      · exact h
      · exact absurd hd h.aliased.not_declared
      · exact absurd hd h
  · rw [hn]
    constructor
    · intro h
      exact .inl (.inr ⟨rfl, r, hr, h⟩)
    · rintro ((h | ⟨-, q, hq, h⟩) | ⟨-, h, -⟩)
      · exact absurd h.declared hd
      · -- only one state is next in number
        obtain rfl := hval (hq.trans hr.symm)
        exact h
      · exact absurd ⟨rfl, r, hr, hrd⟩ h
  · rw [hn]
    constructor
    · rintro ⟨⟩
      exact .inr ⟨hd, ha, rfl⟩
    · rintro ((h | h) | ⟨-, -, rfl⟩)
      · exact absurd h.declared hd
      · exact absurd h.aliased ha
      · rfl

structure Line where
  tokens : List Token
  endline_notMem : .endline ∉ tokens

/-- The automaton ends the line in `LINE_BEGIN`, by the end-of-line transition of a state
other than `WRONG_LINE`. -/
def Accepts (line : Line) : Prop :=
  ∃ s, s ≠ .wrongLine ∧ Run Step .lineBegin line.tokens s ∧ Step s .endline .lineBegin

def FollowsDeclared (line : Line) : Prop :=
  Run DeclaredStep .lineBegin (line.tokens ++ [.endline]) .lineBegin

/-- The line follows declared transitions up to an unrecognized token that is read as the
colon of another state, and such steps and declared ones lead from there to its end. -/
def Strays (line : Line) : Prop :=
  ∃ u v s s', line.tokens ++ [.endline] = u ++ .unrecognized :: v ∧
    Run DeclaredStep .lineBegin u s ∧ AliasStep s .unrecognized s' ∧
    Run LooseStep s' v .lineBegin

theorem run_wrongLine {w : List Token} (hw : .endline ∉ w) {s : State}
    (h : Run Step .wrongLine w s) : s = .wrongLine := by
  induction w with
  | nil => exact (Run.nil_iff.mp h).symm
  | cons t w ih =>
    obtain ⟨ht, hw⟩ := not_or.mp (mt List.mem_cons.mpr hw)
    obtain ⟨r, hr, h⟩ := Run.cons_iff.mp h
    have hd : DeclaredStep .wrongLine t .wrongLine := declaredNext_wrongLine t (Ne.symm ht)
    rcases step_iff.mp hr with (hr | hr) | ⟨hr, -⟩
    · obtain rfl := declaredStep_unique _ _ _ _ hd hr
      exact ih hw h
    · exact absurd hd.declared hr.aliased.not_declared
    · exact absurd hd.declared hr

theorem looseRun_of_run {w : List Token} (hw : .endline ∉ w) {s s' : State}
    (h : Run Step s w s') (hs' : s' ≠ .wrongLine) : Run LooseStep s w s' := by
  induction w generalizing s with
  | nil => exact Run.nil_iff.mp h ▸ .nil s
  | cons t w ih =>
    obtain ⟨-, hw⟩ := not_or.mp (mt List.mem_cons.mpr hw)
    obtain ⟨r, hr, h⟩ := Run.cons_iff.mp h
    rcases step_iff.mp hr with hr | ⟨-, -, rfl⟩
    · exact .cons hr (ih hw h)
    · exact absurd (run_wrongLine hw h) hs'

theorem run_of_looseRun {w : List Token} {s s' : State} (h : Run LooseStep s w s') :
    Run Step s w s' :=
  h.mono fun _ _ _ hs => step_iff.mpr (.inl hs)

theorem looseRun_ne_wrongLine {w : List Token} {s s' : State} (h : Run LooseStep s w s')
    (hs : s ≠ .wrongLine) : s' ≠ .wrongLine := by
  induction h with
  | nil => exact hs
  | cons hstep _ ih => exact ih (hstep.ne_wrongLine hs)

theorem accepts_iff_looseRun (line : Line) :
    Accepts line ↔ Run LooseStep .lineBegin (line.tokens ++ [.endline]) .lineBegin := by
  rw [Run.concat_iff]
  constructor
  · rintro ⟨s, hs, hrun, hend⟩
    refine ⟨s, looseRun_of_run line.endline_notMem hrun hs, ?_⟩
    rcases step_iff.mp hend with h | ⟨-, -, h⟩
    · exact h
    · exact absurd h (by decide)
  · rintro ⟨s, hrun, hend⟩
    exact ⟨s, looseRun_ne_wrongLine hrun (by decide), run_of_looseRun hrun,
      step_iff.mpr (.inl hend)⟩

/-- A line accepted by the automaton follows its declared transitions, or it strays. -/
theorem accepts_iff (line : Line) : Accepts line ↔ FollowsDeclared line ∨ Strays line := by
  rw [accepts_iff_looseRun]
  constructor
  · intro h
    rcases Run.or_split h with h | ⟨u, a, v, s, s', huv, hu, ha, hv⟩
    · exact .inl h
    · obtain rfl := ha.1
      exact .inr ⟨u, v, s, s', huv, hu, ha, hv⟩
  · rintro (h | ⟨u, v, s, s', huv, hu, ha, hv⟩)
    · exact h.mono fun _ _ _ => .inl
    · rw [huv]
      exact (hu.mono fun _ _ _ => .inl).append (.cons (.inr ha) hv)

theorem Strays.not_followsDeclared {line : Line} (h : Strays line) : ¬ FollowsDeclared line := by
  obtain ⟨u, v, s, s', huv, hu, ha, -⟩ := h
  intro hd
  unfold FollowsDeclared at hd
  rw [huv] at hd
  obtain ⟨q, hq, hd⟩ := Run.append_iff.mp hd
  obtain ⟨r, hr, -⟩ := Run.cons_iff.mp hd
  obtain rfl := hu.unique declaredStep_unique hq
  exact ha.aliased.not_declared hr.declared

/-- The table sends a pair without a declared transition to the error state exactly when it
is not aliased, and a line is accepted for the declared transitions it follows exactly when
it does not stray. -/
theorem automaton_meets_declarations_iff (s : State) (t : Token) (line : Line) :
    ((¬ Declared s t → nextState s t = some .wrongLine) ↔ ¬ Aliased s t) ∧
      ((Accepts line ↔ FollowsDeclared line) ↔ ¬ Strays line) := by
  constructor
  · constructor
    · intro h ha
      obtain ⟨r, hr⟩ : ∃ r, AliasStep s t r := by
        obtain ⟨ht, q, hq, hd⟩ := ha
        exact ⟨_, ht, q, hq, (Option.some_get hd).symm⟩
      have hstep : Step s t r := step_iff.mpr (.inl (.inr hr))
      exact hr.ne_wrongLine (Option.some.inj (hstep.symm.trans (h ha.not_declared)))
    · intro ha hd
      exact step_iff.mpr (.inr ⟨hd, ha, rfl⟩)
  · rw [accepts_iff]
    constructor
    · intro h hs
      exact hs.not_followsDeclared (h.mp (.inr hs))
    · intro hs
      exact ⟨fun h => h.resolve_right hs, .inl⟩

/-- `Q1 ;Human`: the semicolon is read as the colon of a label. -/
def strayLine : Line :=
  ⟨[.identifier, .unrecognized, .identifier], by decide⟩

theorem strayLine_strays : Strays strayLine :=
  ⟨[.identifier], [.identifier, .endline], .firstId, .expectNodeLabel, rfl,
    .single (by decide), by decide,
    .cons (.inl (by decide : DeclaredStep .expectNodeLabel .identifier .nodeDefined))
      (.single (.inl (by decide)))⟩

theorem not_automaton_meets_declarations :
    ¬ ((∀ s t, ¬ Declared s t → nextState s t = some .wrongLine) ∧
      ∀ line, Accepts line ↔ FollowsDeclared line) := by
  rintro ⟨-, h⟩
  have haccepts : Accepts strayLine := (accepts_iff strayLine).mpr (.inr strayLine_strays)
  exact strayLine_strays.not_followsDeclared ((h strayLine).mp haccepts)

end Import
end MillenniumDB
