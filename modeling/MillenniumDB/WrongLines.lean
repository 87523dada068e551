import MillenniumDB.QuadImport

/-!
# Wrong lines

`state.h` says of `WRONG_LINE` that the line will be discarded.  The records of a line are
appended while its tokens are read, so what a wrong line leaves behind are the records of its
tokens before the error.
-/

namespace MillenniumDB
namespace Import

def Action.pushes : Action → Bool
  | saveEdgeType | addNodeLabel
  | addNodePropString | addNodePropInt | addNodePropFloat | addNodePropTrue | addNodePropFalse
  | addEdgePropString | addEdgePropInt | addEdgePropFloat | addEdgePropTrue | addEdgePropFalse
  | finishNodeLine => true
  | _ => false

/-- The number of records of the collections that every appending function adds to. -/
def Collections.size (c : Collections) : Nat :=
  c.declaredNodes.length + c.labels.length + c.properties.length + c.edges.length

section

variable {atof : Bytes → Nat} {str : Bytes} {s s' : OnDiskImport} {action : Action}

theorem collected_saveFirstId {resolve : Resolver}
    (h : OnDiskImport.saveFirstId resolve str s = .ok s') : s'.collected = s.collected := by
  obtain ⟨id, ids, -, rfl⟩ := OnDiskImport.saveFirstId_eq_ok.mp h
  rfl

theorem collected_saveSecondId {resolve : Resolver}
    (h : OnDiskImport.saveSecondId resolve str s = .ok s') : s'.collected = s.collected := by
  obtain ⟨id, ids, -, rfl⟩ := OnDiskImport.saveSecondId_eq_ok.mp h
  rfl

theorem size_addProp {object : OnDiskImport → Nat} {resolve : Resolver}
    (h : OnDiskImport.addProp object resolve str s = .ok s') :
    s'.collected.size = s.collected.size + 1 := by
  obtain ⟨id, ids, -, rfl⟩ := OnDiskImport.addProp_eq_ok.mp h
  simp only [Collections.size, List.length_append, List.length_singleton]
  omega

theorem collected_saveFirstIdImplicit (h : OnDiskImport.saveFirstIdImplicit str s = .ok s') :
    s'.collected = s.collected := by
  unfold OnDiskImport.saveFirstIdImplicit at h
  split_ifs at h <;> cases h <;> rfl

theorem collected_of_not_pushes (hpushes : action.pushes = false)
    (h : action.func atof str s = .ok s') : s'.collected = s.collected := by
  cases action with
  | saveEdgeType | addNodeLabel | addNodePropString | addNodePropInt | addNodePropFloat
  | addNodePropTrue | addNodePropFalse | addEdgePropString | addEdgePropInt | addEdgePropFloat
  | addEdgePropTrue | addEdgePropFalse | finishNodeLine => cases hpushes
  | saveFirstIdImplicit => exact collected_saveFirstIdImplicit h
  | saveFirstIdIdentifier | saveFirstIdAnon | saveFirstIdString | saveFirstIdInt | saveFirstIdFloat
  | saveFirstIdTrue | saveFirstIdFalse => exact collected_saveFirstId h
  | saveSecondIdIdentifier | saveSecondIdAnon | saveSecondIdString | saveSecondIdInt
  | saveSecondIdFloat | saveSecondIdTrue | saveSecondIdFalse => exact collected_saveSecondId h
  | _ =>
    cases h
    rfl

theorem size_of_pushes (hpushes : action.pushes = true) (h : action.func atof str s = .ok s') :
    s'.collected.size = s.collected.size + 1 := by
  cases action with
  | addNodePropString | addNodePropInt | addNodePropFloat | addNodePropTrue | addNodePropFalse
  | addEdgePropString | addEdgePropInt | addEdgePropFloat | addEdgePropTrue
  | addEdgePropFalse => exact size_addProp h
  | saveEdgeType | addNodeLabel | finishNodeLine =>
    cases h
    simp only [Collections.size, OnDiskImport.pushEdge, List.length_append, List.length_singleton]
    omega
  | _ => cases hpushes

end

def State.recorded (s : State) : Bool := s = .nodeDefined || s = .edgeDefined

/-- Within a line a state with a record is entered by appending one, and the functions of all
other transitions append nothing. -/
theorem slot_cases (s : State) (t : Token) (ht : t ≠ .endline) :
    ∃ slot, getTransition createAutomata s t = some slot ∧
      ((slot.func.pushes = true ∧ slot.value.recorded = true) ∨
        (slot.func.pushes = false ∧ (slot.value.recorded = true → s.recorded = true))) := by
  refine ⟨slotAt s t, getTransition_createAutomata s t, ?_⟩
  revert s t
  decide +kernel

/-- The end of a line appends nothing where the line is wrong already, or wrong for ending
there. -/
theorem slot_endline (s : State) (slot : Slot)
    (h : getTransition createAutomata s .endline = some slot) :
    s = .wrongLine ∨ slot.value = .wrongLine → slot.func.pushes = false := by
  rw [getTransition_createAutomata] at h
  obtain rfl := Option.some.inj h
  revert s
  decide +kernel

def Records (s : State) (tokens : List Token) : Prop :=
  ∃ u r, u <+: tokens ∧ Run Step s u r ∧ r.recorded = true

theorem records_nil {s : State} : Records s [] ↔ s.recorded = true := by
  constructor
  · intro ⟨u, r, hu, hrun, hr⟩
    obtain rfl := List.prefix_nil.mp hu
    exact Run.nil_iff.mp hrun ▸ hr
  · intro hs
    exact ⟨[], s, List.prefix_rfl, .nil s, hs⟩

theorem records_cons {s r : State} {t : Token} {tokens : List Token} (h : Step s t r) :
    Records s (t :: tokens) ↔ s.recorded = true ∨ Records r tokens := by
  constructor
  · intro ⟨u, r', hu, hrun, hr'⟩
    cases u with
    | nil => exact .inl (Run.nil_iff.mp hrun ▸ hr')
    | cons t' u =>
      obtain ⟨ht, htail⟩ := List.cons_prefix_cons.mp hu
      obtain ⟨q, hq, hrun⟩ := Run.cons_iff.mp hrun
      rw [ht] at hq
      obtain rfl : r = q := Option.some.inj (h.symm.trans hq)
      exact .inr ⟨u, r', htail, hrun, hr'⟩
  · intro hcases
    rcases hcases with hs | ⟨u, r', hu, hrun, hr'⟩
    · exact ⟨[], s, List.nil_prefix, .nil s, hs⟩
    · exact ⟨t :: u, r', List.cons_prefix_cons.mpr ⟨rfl, hu⟩, .cons h hrun, hr'⟩

section

variable {atof : Bytes → Nat} {current next : State × OnDiskImport} {lexeme : Lexeme}
  {lexemes : List Lexeme}

/-- One token within a line: either it appends a record and the line is in a state with a
record, or it appends nothing and does not get to such a state. -/
theorem readToken_cases (hlexeme : lexeme.token ≠ .endline)
    (h : readToken atof current lexeme = .ok next) :
    (next.2.collected.size = current.2.collected.size + 1 ∧ next.1.recorded = true) ∨
      (next.2.collected = current.2.collected ∧
        (next.1.recorded = true → current.1.recorded = true)) := by
  obtain ⟨slot, hslot, hfunc, hvalue⟩ := readToken_eq_ok.mp h
  obtain ⟨slot', hslot', hcases⟩ := slot_cases current.1 lexeme.token hlexeme
  obtain rfl := Option.some.inj (hslot.symm.trans hslot')
  rw [← hvalue] at hcases
  rcases hcases with ⟨hpushes, hrecorded⟩ | ⟨hpushes, hrecorded⟩
  · exact .inl ⟨size_of_pushes hpushes hfunc, hrecorded⟩
  · exact .inr ⟨collected_of_not_pushes hpushes hfunc, hrecorded⟩

theorem size_readTokens (hline : ∀ lexeme ∈ lexemes, lexeme.token ≠ .endline)
    (h : readTokens atof current lexemes = .ok next) :
    current.2.collected.size ≤ next.2.collected.size := by
  induction lexemes generalizing current with
  | nil => rw [readTokens_nil.mp h]
  | cons lexeme lexemes ih =>
    obtain ⟨hlexeme, hline⟩ := List.forall_mem_cons.mp hline
    obtain ⟨mid, hmid, h⟩ := readTokens_cons.mp h
    have hle := ih hline h
    rcases readToken_cases hlexeme hmid with ⟨hsize, -⟩ | ⟨hsame, -⟩
    · omega
    · rwa [hsame] at hle

theorem collected_readTokens_iff (hline : ∀ lexeme ∈ lexemes, lexeme.token ≠ .endline)
    (h : readTokens atof current lexemes = .ok next) (hcurrent : current.1.recorded = false) :
    next.2.collected = current.2.collected ↔ ¬ Records current.1 (lexemes.map (·.token)) := by
  induction lexemes generalizing current with
  | nil =>
    rw [readTokens_nil.mp h, List.map_nil, records_nil, hcurrent]
    simp
  | cons lexeme lexemes ih =>
    obtain ⟨hlexeme, hline⟩ := List.forall_mem_cons.mp hline
    obtain ⟨mid, hmid, h⟩ := readTokens_cons.mp h
    rw [List.map_cons, records_cons (step_of_readToken hmid), hcurrent]
    rcases readToken_cases hlexeme hmid with ⟨hsize, hmidrecorded⟩ | ⟨hsame, hback⟩
    · have hle := size_readTokens hline h
      have hgrown : next.2.collected ≠ current.2.collected := by
        intro heq
        rw [heq] at hle
        omega
      have hrecords : Records mid.1 (lexemes.map (·.token)) :=
        ⟨[], mid.1, List.nil_prefix, .nil _, hmidrecorded⟩
      simp [hgrown, hrecords]
    · have hmidrecorded : mid.1.recorded = false := by
        by_contra hne
        rw [hback (by simpa using hne)] at hcurrent
        cases hcurrent
      rw [← hsame, ih hline h hmidrecorded]
      simp

/-- A line of a file: the tokens before its end, and the text of the end unless the file ends
without one. -/
structure FileLine where
  lexemes : List Lexeme
  endline : Option Bytes
  not_endline : ∀ lexeme ∈ lexemes, lexeme.token ≠ .endline

namespace FileLine

def tokens (line : FileLine) : List Token := line.lexemes.map (·.token)

def all (line : FileLine) : List Lexeme :=
  line.lexemes ++ line.endline.toList.map fun str => ⟨.endline, str⟩

/-- The tokens of the line, with its end, reach `WRONG_LINE`. -/
def Wrong (line : FileLine) : Prop :=
  ∃ u, u <+: line.all.map (·.token) ∧ Run Step .lineBegin u .wrongLine

end FileLine

theorem step_unique (s : State) (t : Token) (r r' : State) (h : Step s t r) (h' : Step s t r') :
    r = r' := Option.some.inj (h.symm.trans h')

theorem run_of_wrong {tokens u : List Token} (htokens : .endline ∉ tokens) (hu : u <+: tokens)
    (hrun : Run Step .lineBegin u .wrongLine) {s : State} (h : Run Step .lineBegin tokens s) :
    s = .wrongLine := by
  obtain ⟨v, rfl⟩ := hu
  obtain ⟨q, hq, hv⟩ := Run.append_iff.mp h
  obtain rfl := hq.unique step_unique hrun
  exact run_wrongLine (fun hmem => htokens (List.mem_append_right u hmem)) hv

/-- A wrong line leaves the collections as they were exactly when no label, property or edge of
it was complete. -/
theorem wrongLine_discarded_iff (atof : Bytes → Nat) (line : FileLine) (s : OnDiskImport)
    (next : State × OnDiskImport) (hwrong : line.Wrong)
    (h : readTokens atof (.lineBegin, s) line.all = .ok next) :
    next.2.collected = s.collected ↔ ¬ Records .lineBegin line.tokens := by
  obtain ⟨mid, hmid, hend⟩ := readTokens_append.mp h
  have hmiddle := collected_readTokens_iff line.not_endline hmid rfl
  suffices hsame : next.2.collected = mid.2.collected by
    rw [hsame]
    exact hmiddle
  cases hendline : line.endline with
  | none =>
    rw [hendline] at hend
    rw [readTokens_nil.mp hend]
  | some str =>
    rw [hendline] at hend
    obtain ⟨last, hlast, hnext⟩ := readTokens_cons.mp hend
    obtain rfl := readTokens_nil.mp hnext
    obtain ⟨slot, hslot, hfunc, hvalue⟩ := readToken_eq_ok.mp hlast
    apply collected_of_not_pushes (slot_endline mid.1 slot hslot ?_) hfunc
    have hnotend : .endline ∉ line.tokens := by
      intro hmem
      obtain ⟨lexeme, hlexeme, htoken⟩ := List.mem_map.mp hmem
      exact line.not_endline lexeme hlexeme htoken
    obtain ⟨u, hu, hrun⟩ := hwrong
    have hall : line.all.map (·.token) = line.tokens ++ [.endline] := by
      simp [FileLine.all, FileLine.tokens, hendline]
    rw [hall, List.prefix_concat_iff] at hu
    rcases hu with rfl | hu
    · right
      rw [← hvalue]
      obtain ⟨q, hq, hstep⟩ := Run.concat_iff.mp hrun
      obtain rfl := hq.unique step_unique (run_of_readTokens hmid)
      exact step_unique _ _ _ _ (step_of_readToken hlast) hstep
    · left
      exact run_of_wrong hnotend hu hrun (run_of_readTokens hmid)

end

/-- `Q1 :Human :` with nothing after the second colon. -/
def unfinishedLine : FileLine where
  lexemes := [⟨.identifier, [81, 49]⟩, ⟨.whitespace, [32]⟩, ⟨.colon, [58]⟩,
    ⟨.identifier, [72, 117, 109, 97, 110]⟩, ⟨.whitespace, [32]⟩, ⟨.colon, [58]⟩]
  endline := some [10]
  not_endline := by decide

theorem unfinishedLine_wrong : unfinishedLine.Wrong :=
  ⟨_, List.prefix_rfl, Run.of_foldlM (f := nextState) (by decide +kernel)⟩

def atStart : OnDiskImport := .start (fun _ => 0) 0 0 0 0 0 true

def collectedFrom (lexemes : List Lexeme) : Except String Collections :=
  (readTokens (fun _ => 0) (.lineBegin, atStart) lexemes).map (·.2.collected)

theorem readTokens_of_collectedFrom {lexemes : List Lexeme} {c : Collections}
    (h : collectedFrom lexemes = .ok c) : ∃ next : State × OnDiskImport,
      readTokens (fun _ => 0) (.lineBegin, atStart) lexemes = .ok next ∧ next.2.collected = c := by
  unfold collectedFrom at h
  cases hread : readTokens (fun _ => 0) (.lineBegin, atStart) lexemes with
  | error e =>
    rw [hread] at h
    cases h
  | ok next =>
    rw [hread] at h
    exact ⟨next, rfl, Except.ok.inj h⟩

theorem collectedFrom_unfinishedLine : collectedFrom unfinishedLine.all =
    .ok { Collections.empty with labels := [(22853349183324160, 452740875197218816)] } := by
  decide +kernel

theorem wrongLine_discarded_unfinishedLine : ∃ next : State × OnDiskImport,
    readTokens (fun _ => 0) (.lineBegin, atStart) unfinishedLine.all = .ok next ∧
      (next.2.collected = atStart.collected ↔ ¬ Records .lineBegin unfinishedLine.tokens) := by
  obtain ⟨next, hread, -⟩ := readTokens_of_collectedFrom collectedFrom_unfinishedLine
  exact ⟨next, hread, wrongLine_discarded_iff (fun _ => 0) unfinishedLine atStart next
    unfinishedLine_wrong hread⟩

theorem not_wrongLine_discarded : ¬ ∀ (atof : Bytes → Nat) (line : FileLine) (s : OnDiskImport)
    (next : State × OnDiskImport), line.Wrong →
      readTokens atof (.lineBegin, s) line.all = .ok next → next.2.collected = s.collected := by
  intro h
  obtain ⟨next, hread, hcollected⟩ := readTokens_of_collectedFrom collectedFrom_unfinishedLine
  have hsame := h _ unfinishedLine atStart next unfinishedLine_wrong hread
  rw [hcollected] at hsame
  exact absurd hsame (by decide)

end Import
end MillenniumDB
