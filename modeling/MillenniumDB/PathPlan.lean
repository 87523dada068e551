import MillenniumDB.BfsCheck
import MillenniumDB.UnfixedComposite

/-!
# Path plans

`PathPlan` chooses one of four operators for a path pattern, by what the plans before it have
bound.  The rows of an operator are compared with the walks of the graph that the words of
the path label.
-/

namespace MillenniumDB

def idLabel (f : String → Nat) (l : PathLabel) : EdgeLabel := (f l.1, l.2)

/-- Two existing nodes are joined by a walk that a word of the language labels. -/
def Reaches (G : QuadModel) (f : String → Nat) (L : Language PathLabel) (n m : Nat) : Prop :=
  n ∈ G.nodes ∧ m ∈ G.nodes ∧ ∃ w ∈ L, Run G.Step n (w.map (idLabel f)) m

section

variable {G : QuadModel} {A : RPQAutomaton} {f : String → Nat} {L : Language PathLabel}
  {n m i j : Nat}

theorem run_idStep_iff (hA : ∀ i, ∀ t ∈ A.fromTo i, t.typeId = f t.type) {w : List EdgeLabel} :
    Run A.IdStep i w j ↔ ∃ u, Run A.Step i u j ∧ u.map (idLabel f) = w := by
  constructor
  · intro h
    induction h with
    | nil => exact ⟨[], .nil _, rfl⟩
    | @cons i k j l w hstep _ ih =>
      obtain ⟨t, ht, hto, rfl⟩ := hstep
      obtain ⟨u, hu, rfl⟩ := ih
      refine ⟨(t.type, t.inverse) :: u, .cons ⟨t, ht, hto, rfl⟩ hu, ?_⟩
      rw [List.map_cons, idLabel, ← hA i t ht]
  · intro ⟨u, hu, hmap⟩
    subst hmap
    induction hu with
    | nil => exact .nil _
    | @cons i k j l u hstep _ ih =>
      obtain ⟨t, ht, hto, rfl⟩ := hstep
      refine .cons ⟨t, ht, hto, ?_⟩ ih
      rw [idLabel, hA i t ht]

theorem acceptsIds_iff (hA : ∀ i, ∀ t ∈ A.fromTo i, t.typeId = f t.type) {w : List EdgeLabel} :
    A.acceptsIds w ↔ ∃ u, A.accepts u ∧ u.map (idLabel f) = w := by
  unfold RPQAutomaton.acceptsIds RPQAutomaton.accepts
  rw [run_idStep_iff hA]
  constructor
  · intro h
    rcases h with ⟨rfl, hstart⟩ | ⟨hw, u, hu, rfl⟩
    · exact ⟨[], .inl ⟨rfl, hstart⟩, rfl⟩
    · exact ⟨u, .inr ⟨by simpa using hw, hu⟩, rfl⟩
  · intro ⟨u, hu, hmap⟩
    subst hmap
    rcases hu with ⟨rfl, hstart⟩ | ⟨hw, hu⟩
    · exact .inl ⟨rfl, hstart⟩
    · exact .inr ⟨by simpa using hw, u, hu, rfl⟩

theorem run_mem_nodes {w : List EdgeLabel} (hn : n ∈ G.nodes) (h : Run G.Step n w m) :
    m ∈ G.nodes := by
  induction h with
  | nil => exact hn
  | cons hstep _ ih => exact ih hstep.mem_nodes.2

theorem answer_iff (hA : ∀ i, ∀ t ∈ A.fromTo i, t.typeId = f t.type)
    (hL : ∀ w, A.accepts w ↔ w ∈ L) : Paths.Answer G A n m ↔ Reaches G f L n m := by
  constructor
  · intro ⟨hn, w, hw, hrun⟩
    obtain ⟨u, hu, rfl⟩ := (acceptsIds_iff hA).mp hw
    exact ⟨hn, run_mem_nodes hn hrun, u, (hL u).mp hu, hrun⟩
  · intro ⟨hn, _, u, hu, hrun⟩
    exact ⟨hn, _, (acceptsIds_iff hA).mpr ⟨u, (hL u).mpr hu, rfl⟩, hrun⟩

theorem step_flip {l : EdgeLabel} (h : G.Step n l m) : G.Step m (l.1, !l.2) n := by
  obtain ⟨edge, he⟩ := h
  obtain ⟨typeId, inverse⟩ := l
  refine ⟨edge, ?_⟩
  cases inverse <;> simpa using he

theorem reaches_invert : Reaches G f (IPath.invertWords L) m n ↔ Reaches G f L n m := by
  have hwords : ∀ w : List PathLabel, ((w.map (idLabel f)).map fun l => (l.1, !l.2)).reverse =
      (w.map IPath.flipLabel).reverse.map (idLabel f) := by
    intro w
    simp [idLabel, IPath.flipLabel]
  have hrun : ∀ (w : List PathLabel) k k', Run G.Step k (w.map (idLabel f)) k' →
      Run G.Step k' ((w.map IPath.flipLabel).reverse.map (idLabel f)) k := by
    intro w k k' h
    rw [← hwords]
    exact h.reverse fun _ _ _ => step_flip
  constructor
  · rintro ⟨hm, hn, w, hw, h⟩
    exact ⟨hn, hm, _, IPath.mem_invertWords.mp hw, hrun w m n h⟩
  · rintro ⟨hn, hm, w, hw, h⟩
    refine ⟨hm, hn, (w.map IPath.flipLabel).reverse, ?_, hrun w n m h⟩
    rw [IPath.mem_invertWords]
    simpa [IPath.flipLabel, Function.comp_def] using hw

end

namespace Paths

/-- `Id`: an `ObjectId` or a `VarId`. -/
inductive Id
  | objectId (id : Nat)
  | varId (id : Nat)
  deriving DecidableEq

def Id.value (b : Binding) : Id → Nat
  | objectId o => o
  | varId v => b v

/-- `PathPlan`, under `PathSemantic::ANY`. -/
structure PathPlan where
  fromId : Id
  toId : Id
  path : IPath
  fromAssigned : Bool
  toAssigned : Bool

inductive PathOperator
  | bfsCheck (start endId : Id) (automaton : RPQAutomaton)
  | bfsIterEnum (start : Id) (endVar : Nat) (automaton : RPQAutomaton)
  | unfixedComposite (startVar endVar : Nat) (automaton : RPQAutomaton)

namespace PathPlan

/-- `holds_alternative<ObjectId>`. -/
def holdsObject : Id → Bool
  | .objectId _ => true
  | .varId _ => false

def new (fromId toId : Id) (path : IPath) : PathPlan :=
  ⟨fromId, toId, path, holdsObject fromId, holdsObject toId⟩

def setInputVar (inputVars : List Nat) (assigned : Bool) : Id → Bool
  | .objectId _ => assigned
  | .varId v => if v ∈ inputVars then true else assigned

def setInputVars (inputVars : List Nat) (p : PathPlan) : PathPlan :=
  { p with
    fromAssigned := setInputVar inputVars p.fromAssigned p.fromId
    toAssigned := setInputVar inputVars p.toAssigned p.toId }

def planned (fromId toId : Id) (path : IPath) (inputs : List (List Nat)) : PathPlan :=
  inputs.foldl (fun p inputVars => p.setInputVars inputVars) (new fromId toId path)

/-- The expression that `get_binding_id_iter` builds an automaton for. -/
def builtPath (p : PathPlan) : IPath :=
  if p.fromAssigned = false ∧ p.toAssigned then p.path.invert else p.path

/-- One end in `get_vars`. -/
def freeVar : Id → Bool → List Nat
  | .varId v, false => [v]
  | _, _ => []

def getVars (p : PathPlan) : List Nat :=
  freeVar p.fromId p.fromAssigned ++ freeVar p.toId p.toAssigned

/-- `get_binding_id_iter`; `bad_variant_access` is what `std::get` throws. -/
def getBindingIdIter (f : String → Nat) (p : PathPlan) : Except String PathOperator :=
  if p.fromAssigned then
    if p.toAssigned then .ok (.bfsCheck p.fromId p.toId (p.path.getRpqAutomaton f))
    else
      match p.toId with
      | .varId v => .ok (.bfsIterEnum p.fromId v (p.path.getRpqAutomaton f))
      | .objectId _ => .error "bad_variant_access"
  else if p.toAssigned then
    match p.fromId with
    | .varId v => .ok (.bfsIterEnum p.toId v (p.path.invert.getRpqAutomaton f))
    | .objectId _ => .error "bad_variant_access"
  else if p.path.nullable then .error "Nullable property paths must have at least 1 node fixed"
  else
    match p.fromId, p.toId with
    | .varId v, .varId w => .ok (.unfixedComposite v w (p.path.getRpqAutomaton f))
    | _, _ => .error "bad_variant_access"

end PathPlan

inductive OperatorState
  | check (binding : Binding) (endId : Nat) (state : BFSCheck)
  | enumerate (binding : Binding) (state : IterEnum)
  | unfixed (state : Option UnfixedComposite)

namespace PathOperator

/-- `begin`. -/
def start (G : QuadModel) (b : Binding) : PathOperator → OperatorState
  | bfsCheck startId endId _ => .check b (endId.value b) (.start (startId.value b))
  | bfsIterEnum startId _ _ => .enumerate b (.start (startId.value b))
  | unfixedComposite startVar _ A => .unfixed (UnfixedComposite.start G A startVar b)

/-- `next`; the result `some none` is the use of a null pointer. -/
def next (G : QuadModel) (fuel : Nat) : PathOperator → OperatorState →
    Option (Option PathRow) × OperatorState
  | bfsCheck _ _ A, .check b endId st =>
    let called := BFSCheck.next G A endId fuel st
    (called.1.map fun r => some (b, r), .check b endId called.2)
  | bfsIterEnum _ endVar A, .enumerate b st =>
    let called := BFSIterEnum.next G A fuel st
    match called.1 with
    | none => (none, .enumerate b called.2)
    | some r =>
      let b' := Function.update b endVar r.nodeId
      (some (some (b', r)), .enumerate b' called.2)
  | unfixedComposite startVar endVar A, .unfixed st =>
    let called := UnfixedComposite.next G A startVar endVar fuel st
    (called.1, .unfixed called.2)
  | _, st => (none, st)

def automaton : PathOperator → RPQAutomaton
  | bfsCheck _ _ A => A
  | bfsIterEnum _ _ A => A
  | unfixedComposite _ _ A => A

def callFuel (G : QuadModel) (op : PathOperator) : Nat :=
  searchFuel G op.automaton + UnfixedComposite.roundFuel G op.automaton

end PathOperator

namespace PathPlan

def pair (p : PathPlan) (row : PathRow) : Nat × Nat := (p.fromId.value row.1, p.toId.value row.1)

/-- The nodes are joined by a walk of the path, and they are the values of the two ends under
a binding that keeps what is bound. -/
def Matches (G : QuadModel) (f : String → Nat) (p : PathPlan) (b : Binding) (n m : Nat) : Prop :=
  Reaches G f p.path.words n m ∧ ∃ b' : Binding, (∀ v, v ∉ p.getVars → b' v = b v) ∧
    p.fromId.value b' = n ∧ p.toId.value b' = m

/-- Whenever the plan raises no error, the pairs that its operator returns are the ones that
match. -/
def Answered (G : QuadModel) (f : String → Nat) (p : PathPlan) (b : Binding) : Prop :=
  ∀ op, p.getBindingIdIter f = .ok op → ∀ fuel, op.callFuel G ≤ fuel →
    ∃ rows : List PathRow, Yields (op.next G fuel) (op.start G b) (rows.map some) ∧
      ∀ n m, (n, m) ∈ rows.map p.pair ↔ p.Matches G f b n m

/-- When both ends are free: the first transition has edges unless none has, and the nodes
with an edge of a type on the first transitions, walked forwards, suffice as start nodes. -/
structure FreeEndsRight (G : QuadModel) (f : String → Nat) (path : IPath) (v w : Nat) : Prop where
  begins : ∃ t ts, (path.getRpqAutomaton f).fromTo 0 = t :: ts ∧
    (G.typeRange t.typeId = [] → UnfixedComposite.sources G ts = [])
  covered : v ≠ w → ∀ n m, Reaches G f path.words n m →
    n ∈ UnfixedComposite.sources G ((path.getRpqAutomaton f).fromTo 0)
  cyclic : v = w → ∀ m, Reaches G f path.words m m ↔
    ∃ n ∈ UnfixedComposite.sources G ((path.getRpqAutomaton f).fromTo 0), Reaches G f path.words n m

section

variable {G : QuadModel} {f : String → Nat} {p : PathPlan} {b : Binding} {A : RPQAutomaton}
  {fuel v w : Nat} {startId endId : Id} {path : IPath}

theorem yields_bfsCheck {results : List SearchState}
    (h : Yields (BFSCheck.next G A (endId.value b) fuel) (.start (startId.value b)) results) :
    Yields (PathOperator.next G fuel (.bfsCheck startId endId A))
      (PathOperator.start G b (.bfsCheck startId endId A))
      ((results.map fun r => (b, r)).map some) := by
  rw [List.map_map]
  apply h.map (fun s t => t = .check b (endId.value b) s) _ _ rfl
  intro s t ht
  subst ht
  exact ⟨rfl, rfl⟩

theorem yields_bfsIterEnum {results : List SearchState}
    (h : Yields (BFSIterEnum.next G A fuel) (.start (startId.value b)) results) :
    Yields (PathOperator.next G fuel (.bfsIterEnum startId v A))
      (PathOperator.start G b (.bfsIterEnum startId v A))
      ((results.map fun r => (Function.update b v r.nodeId, r)).map some) := by
  rw [List.map_map]
  apply h.map (fun s t => ∃ b', t = .enumerate b' s ∧
    ∀ m, Function.update b' v m = Function.update b v m) _ _ ⟨b, rfl, fun m => rfl⟩
  intro s t ⟨b', ht, hb'⟩
  subst ht
  unfold PathOperator.next
  cases hnext : (BFSIterEnum.next G A fuel s).1 with
  | none => exact ⟨by simp [hnext], b', by simp [hnext], hb'⟩
  | some r =>
    refine ⟨by simp [hnext, hb'], Function.update b' v r.nodeId, by simp [hnext], fun m => ?_⟩
    rw [Function.update_idem, hb']

theorem yields_unfixedComposite {out : List (Option PathRow)} :
    Yields (PathOperator.next G fuel (.unfixedComposite v w A))
      (PathOperator.start G b (.unfixedComposite v w A)) out ↔
      Yields (UnfixedComposite.next G A v w fuel) (UnfixedComposite.start G A v b) out := by
  constructor
  · intro h
    rw [← List.map_id out]
    apply h.map (fun s t => s = .unfixed t) _ _ rfl
    intro s t hs
    subst hs
    exact ⟨by simp [PathOperator.next], rfl⟩
  · intro h
    rw [← List.map_id out]
    apply h.map (fun s t => t = .unfixed s) _ _ rfl
    intro s t ht
    subst ht
    exact ⟨by simp [PathOperator.next], rfl⟩

/-- The nodes that `BFSIterEnum` returns. -/
theorem exists_yields_bfsIterEnum (hA : A.InRange) (halone : A.FinalStateAlone)
    (hfuel : searchFuel G A ≤ fuel) (s : Nat) :
    ∃ results, Yields (BFSIterEnum.next G A fuel) (.start s) results ∧
      ∀ m, (∃ r ∈ results, r.nodeId = m) ↔ Answer G A s m := by
  by_cases hs : s ∈ G.nodes
  · obtain ⟨out, h, hlength⟩ := exists_search G.serves_provider hA s (insert (0, s) (marked A s))
    unfold searchFuel at hfuel
    refine ⟨_, BFSIterEnum.yields_next hs h (by omega), fun m => ?_⟩
    rw [← (answers_of_search halone hs G.serves_provider h).mem_iff m, List.mem_map]
  · refine ⟨[], BFSIterEnum.yields_nil hs, fun m => ?_⟩
    simp [Answer, hs]

def assignedIn (vars : List Nat) : Id → Bool
  | .objectId _ => true
  | .varId v => v ∈ vars

def bound (fromId toId : Id) (path : IPath) (vars : List Nat) : PathPlan :=
  ⟨fromId, toId, path, assignedIn vars fromId, assignedIn vars toId⟩

theorem setInputVar_assignedIn (vars vars' : List Nat) (id : Id) :
    setInputVar vars' (assignedIn vars id) id = assignedIn (vars ++ vars') id := by
  cases id with
  | objectId o => rfl
  | varId v =>
    by_cases hv : v ∈ vars' <;> simp [setInputVar, assignedIn, hv]

theorem planned_eq_bound (fromId toId : Id) (path : IPath) (inputs : List (List Nat)) :
    planned fromId toId path inputs = bound fromId toId path inputs.flatten := by
  have hnew : new fromId toId path = bound fromId toId path [] := by
    cases fromId <;> cases toId <;> rfl
  rw [planned, hnew, foldl_set_eq, List.nil_append]
  intro vars vars'
  simp only [bound, setInputVars, setInputVar_assignedIn]

theorem value_congr {vars : List Nat} {id : Id} {b' : Binding} (h : assignedIn vars id = true)
    (hb : ∀ v ∈ vars, b' v = b v) : id.value b' = id.value b := by
  cases id with
  | objectId o => rfl
  | varId v =>
    apply hb
    simpa [assignedIn] using h

theorem answer_iff_reaches (hp : path.BuiltRight) : (path.getRpqAutomaton f).InRange ∧
    (path.getRpqAutomaton f).FinalStateAlone ∧
      ∀ n m, Answer G (path.getRpqAutomaton f) n m ↔ Reaches G f path.words n m := by
  obtain ⟨hpos, hrows⟩ := path.transitions_getRpqAutomaton hp.startsFresh f
  exact ⟨⟨hpos, fun i t ht => (hrows i t ht).2⟩, path.finalStateAlone_getRpqAutomaton hp.startsFresh f,
    fun n m => answer_iff (fun i t ht => (hrows i t ht).1) (hp.accepts_iff f)⟩

variable {fromId toId : Id} {vars : List Nat}

theorem answered_both (hp : path.BuiltRight) (hfrom : assignedIn vars fromId = true)
    (hto : assignedIn vars toId = true) : (bound fromId toId path vars).Answered G f b := by
  intro op hop fuel hfuel
  have heq : (bound fromId toId path vars).getBindingIdIter f =
      .ok (.bfsCheck fromId toId (path.getRpqAutomaton f)) := by
    simp [bound, getBindingIdIter, hfrom, hto]
  obtain rfl := Except.ok.inj (heq.symm.trans hop)
  obtain ⟨hrange, -, hanswer⟩ := answer_iff_reaches (G := G) (f := f) hp
  obtain ⟨results, hyields, hiff⟩ := BFSCheck.exists_yields hrange
    (Nat.le_of_add_right_le hfuel) (fromId.value b) (toId.value b)
  refine ⟨_, yields_bfsCheck hyields, fun n m => ?_⟩
  have hvars : (bound fromId toId path vars).getVars = [] := by
    simp [bound, getVars, hfrom, hto, freeVar]
  have hrows : (n, m) ∈ (results.map fun r => (b, r)).map (bound fromId toId path vars).pair ↔
      results ≠ [] ∧ fromId.value b = n ∧ toId.value b = m := by
    cases results with
    | nil => simp
    | cons r results => simp [pair, bound, eq_comm]
  rw [hrows, hiff, hanswer, Matches, hvars]
  constructor
  · intro ⟨hreach, hn, hm⟩
    subst hn hm
    exact ⟨hreach, b, fun v _ => rfl, rfl, rfl⟩
  · intro ⟨hreach, b', hb', hn, hm⟩
    obtain rfl : b' = b := funext fun v => hb' v List.not_mem_nil
    subst hn hm
    exact ⟨hreach, rfl, rfl⟩

theorem mem_rows_iff {results : List SearchState} (hstart : assignedIn vars startId = true)
    (hv : v ∉ vars) {n m : Nat} :
    (∃ row ∈ results.map fun r => (Function.update b v r.nodeId, r),
      startId.value row.1 = n ∧ row.1 v = m) ↔
        startId.value b = n ∧ ∃ r ∈ results, r.nodeId = m := by
  have hvalue : ∀ k, startId.value (Function.update b v k) = startId.value b := by
    intro k
    apply value_congr hstart
    intro u hu
    apply Function.update_of_ne
    intro heq
    exact hv (heq ▸ hu)
  constructor
  · intro ⟨row, hrow, hn, hm⟩
    obtain ⟨r, hr, rfl⟩ := List.mem_map.mp hrow
    rw [hvalue] at hn
    exact ⟨hn, r, hr, by simpa using hm⟩
  · intro ⟨hn, r, hr, hm⟩
    exact ⟨_, List.mem_map_of_mem hr, (hvalue _).trans hn, by simpa using hm⟩

/-- With one free variable, the values of the ends are those of the assigned end and any. -/
theorem exists_binding_iff (hstart : assignedIn vars startId = true) (hv : v ∉ vars) {n m : Nat} :
    (∃ b' : Binding, (∀ u, u ∉ [v] → b' u = b u) ∧ startId.value b' = n ∧ b' v = m) ↔
      startId.value b = n := by
  constructor
  · intro ⟨b', hb', hn, _⟩
    rw [← hn]
    symm
    apply value_congr hstart
    intro u hu
    apply hb'
    intro heq
    exact hv (List.mem_singleton.mp heq ▸ hu)
  · intro hn
    refine ⟨Function.update b v m, fun u hu => ?_, ?_, Function.update_self ..⟩
    · exact Function.update_of_ne (fun heq => hu (List.mem_singleton.mpr heq)) ..
    · rw [← hn]
      apply value_congr hstart
      intro u hu
      apply Function.update_of_ne
      intro heq
      exact hv (heq ▸ hu)

theorem answered_from (hp : path.BuiltRight) (hfrom : assignedIn vars fromId = true)
    (hw : w ∉ vars) : (bound fromId (.varId w) path vars).Answered G f b := by
  have hto : assignedIn vars (.varId w) = false := decide_eq_false hw
  intro op hop fuel hfuel
  have heq : (bound fromId (.varId w) path vars).getBindingIdIter f =
      .ok (.bfsIterEnum fromId w (path.getRpqAutomaton f)) := by
    simp [bound, getBindingIdIter, hfrom, hto]
  obtain rfl := Except.ok.inj (heq.symm.trans hop)
  obtain ⟨hrange, halone, hanswer⟩ := answer_iff_reaches (G := G) (f := f) hp
  obtain ⟨results, hyields, hiff⟩ := exists_yields_bfsIterEnum (G := G) hrange halone
    (Nat.le_of_add_right_le hfuel) (fromId.value b)
  refine ⟨_, yields_bfsIterEnum hyields, fun n m => ?_⟩
  have hvars : (bound fromId (.varId w) path vars).getVars = [w] := by
    simp [bound, getVars, hfrom, hto, freeVar]
  have hpair : (n, m) ∈ (results.map fun r => (Function.update b w r.nodeId, r)).map
      (bound fromId (.varId w) path vars).pair ↔
        fromId.value b = n ∧ ∃ r ∈ results, r.nodeId = m := by
    rw [← mem_rows_iff hfrom hw, List.mem_map]
    simp only [pair, bound, Id.value, Prod.mk.injEq]
  rw [hpair, hiff, hanswer, Matches, hvars]
  show _ ↔ _ ∧ ∃ b' : Binding, _ ∧ fromId.value b' = n ∧ b' w = m
  rw [exists_binding_iff hfrom hw]
  constructor
  · intro ⟨hn, hreach⟩
    exact ⟨hn ▸ hreach, hn⟩
  · intro ⟨hreach, hn⟩
    exact ⟨hn, hn ▸ hreach⟩

theorem answered_to (hp : path.invert.BuiltRight) (hv : v ∉ vars)
    (hto : assignedIn vars toId = true) : (bound (.varId v) toId path vars).Answered G f b := by
  have hfrom : assignedIn vars (.varId v) = false := decide_eq_false hv
  intro op hop fuel hfuel
  have heq : (bound (.varId v) toId path vars).getBindingIdIter f =
      .ok (.bfsIterEnum toId v (path.invert.getRpqAutomaton f)) := by
    simp [bound, getBindingIdIter, hfrom, hto]
  obtain rfl := Except.ok.inj (heq.symm.trans hop)
  obtain ⟨hrange, halone, hanswer⟩ := answer_iff_reaches (G := G) (f := f) hp
  obtain ⟨results, hyields, hiff⟩ := exists_yields_bfsIterEnum (G := G) hrange halone
    (Nat.le_of_add_right_le hfuel) (toId.value b)
  refine ⟨_, yields_bfsIterEnum hyields, fun n m => ?_⟩
  have hvars : (bound (.varId v) toId path vars).getVars = [v] := by
    simp [bound, getVars, hfrom, hto, freeVar]
  have hpair : (n, m) ∈ (results.map fun r => (Function.update b v r.nodeId, r)).map
      (bound (.varId v) toId path vars).pair ↔
        toId.value b = m ∧ ∃ r ∈ results, r.nodeId = n := by
    rw [← mem_rows_iff hto hv, List.mem_map]
    simp only [pair, bound, Id.value, Prod.mk.injEq]
    constructor <;> exact fun ⟨row, hrow, h, h'⟩ => ⟨row, hrow, h', h⟩
  rw [hpair, hiff, hanswer, path.words_invert, reaches_invert, Matches, hvars]
  have hbinding : (∃ b' : Binding, (∀ u, u ∉ [v] → b' u = b u) ∧ b' v = n ∧ toId.value b' = m) ↔
      toId.value b = m := by
    rw [← exists_binding_iff hto hv (m := n)]
    constructor <;> exact fun ⟨b', hb', h, h'⟩ => ⟨b', hb', h', h⟩
  show _ ↔ _ ∧ ∃ b' : Binding, _ ∧ b' v = n ∧ toId.value b' = m
  rw [hbinding]
  constructor
  · intro ⟨hm, hreach⟩
    exact ⟨hm ▸ hreach, hm⟩
  · intro ⟨hreach, hm⟩
    exact ⟨hm, hm ▸ hreach⟩

theorem mem_rowsFrom_iff {results : Nat → List SearchState} {ns : List Nat} {n m : Nat} :
    (∃ row ∈ UnfixedComposite.rowsFrom b v w results [] ns, row.1 v = n ∧ row.1 w = m) ↔
      ∃ k ∈ ns, (∃ r ∈ results k, r.nodeId = m) ∧ n = if v = w then m else k := by
  have hrow : ∀ k (r : SearchState), (UnfixedComposite.rowFor b v w k r).1 w = r.nodeId ∧
      (UnfixedComposite.rowFor b v w k r).1 v = if v = w then r.nodeId else k := by
    intro k r
    by_cases hvw : v = w <;> simp [UnfixedComposite.rowFor, hvw]
  constructor
  · rintro ⟨row, hmem, hn, hm⟩
    obtain ⟨k, hk, hmem⟩ := List.mem_flatMap.mp hmem
    obtain ⟨r, hr, rfl⟩ := List.mem_map.mp hmem
    rw [(hrow k r).1] at hm
    rw [(hrow k r).2, hm] at hn
    exact ⟨k, (UnfixedComposite.mem_freshStarts.mp hk).1, ⟨r, hr, hm⟩, hn.symm⟩
  · rintro ⟨k, hk, ⟨r, hr, hm⟩, hn⟩
    refine ⟨UnfixedComposite.rowFor b v w k r, ?_, ?_, (hrow k r).1.trans hm⟩
    · refine List.mem_flatMap.mpr ⟨k, ?_, List.mem_map_of_mem hr⟩
      exact UnfixedComposite.mem_freshStarts.mpr ⟨hk, List.not_mem_nil⟩
    · rw [(hrow k r).2, hm, hn]

theorem exists_binding_free {n m : Nat} :
    (∃ b' : Binding, (∀ u, u ∉ [v, w] → b' u = b u) ∧ b' v = n ∧ b' w = m) ↔ (v = w → n = m) := by
  constructor
  · intro ⟨b', _, hn, hm⟩ hvw
    rw [← hn, ← hm, hvw]
  · intro h
    refine ⟨Function.update (Function.update b v n) w m, fun u hu => ?_, ?_, Function.update_self ..⟩
    · simp only [List.mem_cons, List.not_mem_nil, or_false, not_or] at hu
      rw [Function.update_of_ne hu.2, Function.update_of_ne hu.1]
    · by_cases hvw : v = w
      · rw [hvw, Function.update_self, h hvw]
      · rw [Function.update_of_ne hvw, Function.update_self]

theorem free_pairs_iff {starts : List Nat} {reach : Nat → Nat → Prop} :
    (∀ n m, (∃ k ∈ starts, reach k m ∧ n = if v = w then m else k) ↔
      reach n m ∧ (v = w → n = m)) ↔
      (v ≠ w → ∀ n m, reach n m → n ∈ starts) ∧
        (v = w → ∀ m, reach m m ↔ ∃ n ∈ starts, reach n m) := by
  by_cases hvw : v = w
  · simp only [hvw, if_true, ne_eq, not_true_eq_false, false_imp_iff, true_and, forall_const]
    constructor
    · intro h m
      constructor
      · intro hm
        obtain ⟨k, hk, hreach, -⟩ := (h m m).mpr ⟨hm, rfl⟩
        exact ⟨k, hk, hreach⟩
      · intro ⟨k, hk, hreach⟩
        exact ((h m m).mp ⟨k, hk, hreach, rfl⟩).1
    · intro h n m
      constructor
      · intro ⟨k, hk, hreach, hn⟩
        subst hn
        exact ⟨(h n).mpr ⟨k, hk, hreach⟩, rfl⟩
      · intro ⟨hreach, hn⟩
        subst hn
        obtain ⟨k, hk, hreach⟩ := (h n).mp hreach
        exact ⟨k, hk, hreach, rfl⟩
  · simp only [hvw, if_false, ne_eq, not_false_eq_true, true_imp_iff, false_imp_iff, and_true]
    constructor
    · intro h n m hreach
      obtain ⟨k, hk, -, hn⟩ := (h n m).mpr hreach
      exact hn ▸ hk
    · intro h n m
      constructor
      · intro ⟨k, hk, hreach, hn⟩
        exact hn ▸ hreach
      · intro hreach
        exact ⟨n, h n m hreach, hreach, rfl⟩

theorem answered_free (hp : path.BuiltRight) (hv : v ∉ vars) (hw : w ∉ vars)
    (hnull : path.nullable = false) :
    (bound (.varId v) (.varId w) path vars).Answered G f b ↔ FreeEndsRight G f path v w := by
  have hfrom : assignedIn vars (.varId v) = false := decide_eq_false hv
  have hto : assignedIn vars (.varId w) = false := decide_eq_false hw
  have heq : (bound (.varId v) (.varId w) path vars).getBindingIdIter f =
      .ok (.unfixedComposite v w (path.getRpqAutomaton f)) := by
    simp [bound, getBindingIdIter, hfrom, hto, hnull]
  have hvars : (bound (.varId v) (.varId w) path vars).getVars = [v, w] := by
    simp [bound, getVars, hfrom, hto, freeVar]
  obtain ⟨hrange, halone, hanswer⟩ := answer_iff_reaches (G := G) (f := f) hp
  have hmatches : ∀ n m, (bound (.varId v) (.varId w) path vars).Matches G f b n m ↔
      Reaches G f path.words n m ∧ (v = w → n = m) := by
    intro n m
    rw [Matches, hvars, ← exists_binding_free (b := b)]
    rfl
  have hpairs : ∀ {results : Nat → List SearchState},
      (∀ k m, (∃ r ∈ results k, r.nodeId = m) ↔ Answer G (path.getRpqAutomaton f) k m) →
      ∀ n m, (n, m) ∈ (UnfixedComposite.rowsFrom b v w results [] (UnfixedComposite.sources G
        ((path.getRpqAutomaton f).fromTo 0))).map (bound (.varId v) (.varId w) path vars).pair ↔
        ∃ k ∈ UnfixedComposite.sources G ((path.getRpqAutomaton f).fromTo 0),
          Reaches G f path.words k m ∧ n = if v = w then m else k := by
    intro results hresults n m
    simp only [← hanswer, ← hresults, ← mem_rowsFrom_iff (b := b), List.mem_map]
    simp only [pair, bound, Id.value, Prod.mk.injEq]
  constructor
  · intro h
    obtain ⟨rows, hyields, hrows⟩ := h _ heq _ le_rfl
    rw [yields_unfixedComposite] at hyields
    obtain ⟨t, ts, hrow, hlater⟩ := UnfixedComposite.begins_of_yields hyields (Nat.le_add_left _ _)
    choose results hresults hiff using
      exists_yields_bfsIterEnum (G := G) hrange halone (Nat.le_add_right _ _)
    have hall := hyields.unique (UnfixedComposite.yields_rowsFrom hresults hrow hlater (Nat.le_add_left _ _))
    have hrows_eq := List.map_injective_iff.mpr (Option.some_injective _) hall
    rw [hrows_eq] at hrows
    have hright := free_pairs_iff.mp fun n m => by rw [← hpairs hiff, hrows, hmatches]
    exact ⟨⟨t, ts, hrow, hlater⟩, hright.1, hright.2⟩
  · intro ⟨hbegins, hcovered, hcyclic⟩ op hop fuel hfuel
    obtain rfl := Except.ok.inj (heq.symm.trans hop)
    obtain ⟨t, ts, hrow, hlater⟩ := hbegins
    choose results hresults hiff using
      exists_yields_bfsIterEnum (G := G) hrange halone (Nat.le_of_add_right_le hfuel)
    refine ⟨_, yields_unfixedComposite.mpr
      (UnfixedComposite.yields_rowsFrom hresults hrow hlater (Nat.le_of_add_left_le hfuel)), fun n m => ?_⟩
    rw [hpairs hiff, hmatches]
    exact free_pairs_iff.mpr ⟨hcovered, hcyclic⟩ n m

theorem assignedIn_eq_false {id : Id} (h : assignedIn vars id = false) :
    ∃ u, id = .varId u ∧ u ∉ vars := by
  cases id with
  | objectId o => cases h
  | varId u => exact ⟨u, rfl, of_decide_eq_false h⟩

/-- Whatever is bound before, the pairs that are returned are the ones that match, unless both
ends are free variables and the start nodes are not right for them. -/
theorem answered_planned_iff (G : QuadModel) (f : String → Nat) (b : Binding) (fromId toId : Id)
    (path : IPath) (inputs : List (List Nat))
    (hp : (planned fromId toId path inputs).builtPath.BuiltRight) :
    (planned fromId toId path inputs).Answered G f b ↔
      ∀ v w, fromId = .varId v → toId = .varId w → v ∉ inputs.flatten → w ∉ inputs.flatten →
        path.nullable = false → FreeEndsRight G f path v w := by
  rw [planned_eq_bound] at hp ⊢
  cases hfrom : assignedIn inputs.flatten fromId with
  | true =>
    have hright : path.BuiltRight := by simpa [builtPath, bound, hfrom] using hp
    have hanswered : (bound fromId toId path inputs.flatten).Answered G f b := by
      cases hto : assignedIn inputs.flatten toId with
      | true => exact answered_both hright hfrom hto
      | false =>
        obtain ⟨w, rfl, hw⟩ := assignedIn_eq_false hto
        exact answered_from hright hfrom hw
    refine iff_of_true hanswered ?_
    intro v w hv _ hfree
    subst hv
    exact absurd (of_decide_eq_true hfrom) hfree
  | false =>
    obtain ⟨v, rfl, hv⟩ := assignedIn_eq_false hfrom
    cases hto : assignedIn inputs.flatten toId with
    | true =>
      have hright : path.invert.BuiltRight := by simpa [builtPath, bound, hfrom, hto] using hp
      refine iff_of_true (answered_to hright hv hto) ?_
      intro _ w _ hw _ hfree
      subst hw
      exact absurd (of_decide_eq_true hto) hfree
    | false =>
      obtain ⟨w, rfl, hw⟩ := assignedIn_eq_false hto
      have hright : path.BuiltRight := by simpa [builtPath, bound, hfrom, hto] using hp
      cases hnull : path.nullable with
      | true =>
        -- the plan raises an error, so nothing is asked of it
        refine iff_of_true ?_ fun _ _ _ _ _ _ h => by cases h
        intro op hop
        simp [bound, getBindingIdIter, hfrom, hto, hnull] at hop
      | false =>
        rw [answered_free hright hv hw hnull]
        constructor
        · intro h v' w' hv' hw' _ _ _
          cases hv'
          cases hw'
          exact h
        · intro h
          exact h v w rfl rfl hv hw rfl

end

theorem builtRight_atom (inverse : Bool) : (IPath.atom "a" inverse).BuiltRight where
  startsFresh := by simp [IPath.StartsFresh]
  mergesHarmlessly := by cases inverse <;> decide +kernel

theorem answered_planned_loopAndEdge :
    (planned (.objectId 0) (.varId 1) (.atom "a" false) [[0]]).Answered loopAndEdge (fun _ => 0)
      (fun _ => 0) ↔ ∀ v w, Id.objectId 0 = .varId v → Id.varId 1 = .varId w →
        v ∉ [[0]].flatten → w ∉ [[0]].flatten → (IPath.atom "a" false).nullable = false →
          FreeEndsRight loopAndEdge (fun _ => 0) (.atom "a" false) v w :=
  answered_planned_iff loopAndEdge (fun _ => 0) (fun _ => 0) (.objectId 0) (.varId 1)
    (.atom "a" false) [[0]] (builtRight_atom false)

def oneEdge : QuadModel where
  nodes := [0, 1]
  typeFromToEdge := [(0, 0, 1, 0)]
  toTypeFromEdge := [(1, 0, 0, 0)]
  same_edges := by
    intros
    simp
    omega
  endpoints := by
    intro _ _ _ _ h
    simp at h ⊢
    omega
  nodup_forward := by decide
  nodup_backward := by decide

/-- For an inverse first label the start nodes are taken from the wrong end of the edges. -/
theorem not_answered_planned : ¬ ∀ (G : QuadModel) (f : String → Nat) (b : Binding)
    (fromId toId : Id) (path : IPath) (inputs : List (List Nat)),
    (planned fromId toId path inputs).Answered G f b := by
  intro h
  have hfree := h oneEdge (fun _ => 0) (fun _ => 0) (.varId 0) (.varId 1) (.atom "a" true) []
  rw [planned_eq_bound, List.flatten_nil,
    answered_free (builtRight_atom true) List.not_mem_nil List.not_mem_nil rfl] at hfree
  have hreaches : Reaches oneEdge (fun _ => 0) (IPath.atom "a" true).words 1 0 := by
    refine ⟨by decide, by decide, [("a", true)], rfl, .single ⟨0, ?_⟩⟩
    decide
  have hstart := hfree.covered (by decide) 1 0 hreaches
  revert hstart
  decide +kernel

end PathPlan
end Paths

end MillenniumDB
