import MillenniumDB.QuadModel

/-!
# Paths as objects

With materialization, `PathManager::set_path` copies the states of a path into a set of the
variable, and the object is the index of the copy of the last state.  The set keeps one state for a
pair of automaton state and node, so a path goes on with what was stored for such a pair before.
-/

namespace MillenniumDB
namespace Paths

namespace SearchState

/-- The states of the chain have different pairs, as a search visits each pair once. -/
def keyChain : SearchState → List (Nat × Nat)
  | root q n => [(q, n)]
  | step p _ _ q n => (q, n) :: p.keyChain

def walk : SearchState → Nat × List (EdgeLabel × Nat)
  | root _ n => (n, [])
  | step p inverse typeId _ n => (p.walk.1, p.walk.2 ++ [((typeId, inverse), n)])

/-- The vectors `nodes`, `types` and `directions` of `get_path`, from the last state on. -/
def frames : SearchState → List (EdgeLabel × Nat)
  | root _ n => [((0, false), n)]
  | step p inverse typeId _ n => ((typeId, inverse), n) :: p.frames

/-- What `get_path` prints: the last node of the vectors, then the other entries backwards. -/
def getPath (s : SearchState) : Nat × List (EdgeLabel × Nat) :=
  ((s.frames.getLast?.map Prod.snd).getD 0, s.frames.dropLast.reverse)

theorem frames_ne_nil (s : SearchState) : s.frames ≠ [] := by
  cases s <;> exact List.cons_ne_nil _ _

theorem getPath_eq_walk (s : SearchState) : s.getPath = s.walk := by
  induction s with
  | root q n => rfl
  | step p inverse typeId q n ih =>
    have hlast : (((typeId, inverse), n) :: p.frames).getLast? = p.frames.getLast? := by
      rw [List.getLast?_cons, List.getLast?_eq_some_getLast p.frames_ne_nil, Option.getD_some]
    have hinit : (((typeId, inverse), n) :: p.frames).dropLast =
        ((typeId, inverse), n) :: p.frames.dropLast :=
      List.dropLast_cons_of_ne_nil p.frames_ne_nil
    unfold getPath at ih ⊢
    rw [walk, ← ih, frames, hlast, hinit, List.reverse_cons]

end SearchState

structure PathManager where
  statesMaterialized : Nat → List SearchState
  paths : List SearchState

namespace PathManager

def maskPath : Nat := 0x12 <<< 56

def pathTypeMask : Nat := 0xFF <<< 48

def pathIndexMask : Nat := 2 ^ 48 - 1

/-- The first loop: the states that are missing, the first one of the path on top of the stack, and
the stored state that they follow. -/
def missingStates (set : List SearchState) :
    SearchState → List SearchState → List SearchState × Option SearchState
  | .root q n, stack =>
    match findState set (q, n) with
    | some stored => (stack, some stored)
    | none => (.root q n :: stack, none)
  | .step p inverse typeId q n, stack =>
    match findState set (q, n) with
    | some stored => (stack, some stored)
    | none => missingStates set p (.step p inverse typeId q n :: stack)

def withPrevious : SearchState → Option SearchState → SearchState
  | .root q n, _ => .root q n
  | .step _ _ _ q n, none => .root q n
  | .step _ inverse typeId q n, some previous => .step previous inverse typeId q n

/-- `states_set.insert`, with the state that the set has for the pair afterwards. -/
def insertState (set : List SearchState) (s : SearchState) : List SearchState × SearchState :=
  match findState set s.key with
  | some stored => (set, stored)
  | none => (set ++ [s], s)

def insertStates : List SearchState → Option SearchState → List SearchState → List SearchState
  | [], _, set => set
  | current :: missing, previous, set =>
    let inserted := insertState set (withPrevious current previous)
    insertStates missing (some inserted.2) inserted.1

/-- `set_path` with materialization.  Without a missing state, the top of an empty stack is read. -/
def setPath (m : PathManager) (visited : SearchState) (pathVar : Nat) :
    Option (Nat × PathManager) :=
  let found := missingStates (m.statesMaterialized pathVar) visited []
  if found.1 = [] then none
  else
    let set := insertStates found.1 found.2 (m.statesMaterialized pathVar)
    (findState set visited.key).map fun stored =>
      (maskPath ||| m.paths.length,
        ⟨Function.update m.statesMaterialized pathVar set, m.paths ++ [stored]⟩)

/-- `print` of a path id. -/
def print (m : PathManager) (pathId : Nat) : Option (Nat × List (EdgeLabel × Nat)) :=
  if pathId &&& pathTypeMask = 0 then
    m.paths[pathId &&& pathIndexMask]?.map SearchState.getPath
  else none

/-- The state after `begin`. -/
def begin : PathManager := ⟨fun _ => [], []⟩

/-- A call of `set_path`: a state that a search has reached, and the variable. -/
structure Call where
  state : SearchState
  pathVar : Nat
  visited_once : state.keyChain.Nodup

def run : PathManager → List Call → Option (List Nat × PathManager)
  | m, [] => some ([], m)
  | m, c :: calls =>
    (m.setPath c.state c.pathVar).bind fun r =>
      (run r.2 calls).map fun rest => (r.1 :: rest.1, rest.2)

def PrintsWalks (m : PathManager) (calls : List Call) : Prop :=
  ∃ ids m', run m calls = some (ids, m') ∧
    List.Forall₂ (fun id c => m'.print id = some c.state.walk) ids calls

/-- What is stored for the pair of a state, or for the first pair before it that has a stored
state, has the same walk up to there. -/
def Agrees (set : List SearchState) : SearchState → Prop
  | .root q n => ∀ stored ∈ findState set (q, n), stored.walk = (SearchState.root q n).walk
  | .step p inverse typeId q n =>
    match findState set (q, n) with
    | some stored => stored.walk = (SearchState.step p inverse typeId q n).walk
    | none => Agrees set p

/-- The last state is not stored, and the path agrees with what is. -/
structure Fresh (m : PathManager) (c : Call) : Prop where
  room : m.paths.length < 2 ^ 48
  missing : findState (m.statesMaterialized c.pathVar) c.state.key = none
  agrees : Agrees (m.statesMaterialized c.pathVar) c.state

/-- Each call of the run finds its last state not stored and its path in agreement. -/
def AllFresh : PathManager → List Call → Prop
  | _, [] => True
  | m, c :: calls => Fresh m c ∧
    ∀ r ∈ m.setPath c.state c.pathVar, AllFresh r.2 calls

def copied (set : List SearchState) : SearchState → SearchState
  | .root q n => (findState set (q, n)).getD (.root q n)
  | .step p inverse typeId q n =>
    (findState set (q, n)).getD (.step (copied set p) inverse typeId q n)

def missingOf (set : List SearchState) : SearchState → List SearchState
  | .root q n => if findState set (q, n) = none then [.root q n] else []
  | .step p inverse typeId q n =>
    if findState set (q, n) = none then missingOf set p ++ [.step p inverse typeId q n] else []

def baseOf (set : List SearchState) : SearchState → Option SearchState
  | .root q n => findState set (q, n)
  | .step p _ _ q n => (findState set (q, n)).or (baseOf set p)

section

variable {set : List SearchState} {s : SearchState}

theorem missingStates_eq (set : List SearchState) : ∀ (s : SearchState) (stack : List SearchState),
    missingStates set s stack = (missingOf set s ++ stack, baseOf set s)
  | .root q n, stack => by
    unfold missingStates missingOf baseOf
    cases findState set (q, n) with
    | none => rfl
    | some stored => rfl
  | .step p inverse typeId q n, stack => by
    unfold missingStates missingOf baseOf
    cases findState set (q, n) with
    | none =>
      dsimp only
      rw [missingStates_eq set p, if_pos rfl, List.append_assoc, Option.none_or]
      rfl
    | some stored => rfl

theorem key_mem_keyChain (s : SearchState) : s.key ∈ s.keyChain := by
  cases s <;> exact List.mem_cons_self

theorem findState_append {states : List SearchState} {key : Nat × Nat} :
    findState (set ++ states) key = (findState set key).or (findState states key) :=
  List.find?_append

theorem findState_eq_none {states : List SearchState} {key : Nat × Nat} :
    findState states key = none ↔ ∀ s ∈ states, s.key ≠ key := by
  simp [findState]

theorem key_copied (set : List SearchState) (s : SearchState) : (copied set s).key = s.key := by
  have hstored : ∀ {key : Nat × Nat} {stored}, findState set key = some stored →
      stored.key = key := fun h => by simpa using List.find?_some h
  cases s with
  | root q n =>
    unfold copied
    cases h : findState set (q, n) with
    | none => rfl
    | some stored => exact hstored h
  | step p inverse typeId q n =>
    unfold copied
    cases h : findState set (q, n) with
    | none => rfl
    | some stored => exact hstored h

theorem insertState_of_missing (h : findState set s.key = none) :
    insertState set s = (set ++ [s], s) := by
  unfold insertState
  rw [h]

theorem key_mem_of_missingOf {t : SearchState} : ∀ {s : SearchState}, t ∈ missingOf set s →
    t.key ∈ s.keyChain
  | .root q n, h => by
    unfold missingOf at h
    split at h
    · rw [List.mem_singleton.mp h]
      exact key_mem_keyChain _
    · exact absurd h List.not_mem_nil
  | .step p inverse typeId q n, h => by
    unfold missingOf at h
    split at h
    · rcases List.mem_append.mp h with h | h
      · exact List.mem_cons_of_mem _ (key_mem_of_missingOf h)
      · rw [List.mem_singleton.mp h]
        exact key_mem_keyChain _
    · exact absurd h List.not_mem_nil

theorem findState_copies {p : SearchState} {key : Nat × Nat} (h : findState set key = none)
    (hkey : key ∉ p.keyChain) :
    findState (set ++ (missingOf set p).map (copied set)) key = none := by
  rw [findState_append, h, Option.none_or, findState_eq_none]
  intro t ht heq
  obtain ⟨u, hu, rfl⟩ := List.mem_map.mp ht
  rw [key_copied] at heq
  exact hkey (heq ▸ key_mem_of_missingOf hu)

/-- The stack is emptied from the first state of the path on, and each copy is the state that the
next one follows. -/
theorem insertStates_missingOf (set : List SearchState) : ∀ (s : SearchState), s.keyChain.Nodup →
    ∀ rest : List SearchState,
    insertStates (missingOf set s ++ rest) (baseOf set s) set =
      insertStates rest (some (copied set s)) (set ++ (missingOf set s).map (copied set))
  | .root q n, _, rest => by
    cases h : findState set (q, n) with
    | none =>
      have hmissing : missingOf set (.root q n) = [.root q n] := if_pos h
      have hcopied : copied set (.root q n) = .root q n := by
        rw [copied, h]
        rfl
      rw [hmissing, List.map_singleton, hcopied, List.singleton_append, insertStates, withPrevious,
        insertState_of_missing h]
    | some stored =>
      have hmissing : missingOf set (.root q n) = [] :=
        if_neg (by rw [h]; exact Option.some_ne_none _)
      have hcopied : copied set (.root q n) = stored := by
        rw [copied, h]
        rfl
      rw [hmissing, hcopied, List.map_nil, List.append_nil, List.nil_append, baseOf, h]
  | .step p inverse typeId q n, hnodup, rest => by
    obtain ⟨hkey, hp⟩ := List.nodup_cons.mp hnodup
    cases h : findState set (q, n) with
    | none =>
      have hmissing : missingOf set (.step p inverse typeId q n) =
          missingOf set p ++ [.step p inverse typeId q n] := if_pos h
      have hbase : baseOf set (.step p inverse typeId q n) = baseOf set p := by
        rw [baseOf, h, Option.none_or]
      have hcopied : copied set (.step p inverse typeId q n) =
          .step (copied set p) inverse typeId q n := by
        rw [copied, h]
        rfl
      have hstill := insertState_of_missing (s := .step (copied set p) inverse typeId q n)
        (findState_copies h hkey)
      rw [hmissing, hbase, List.append_assoc, insertStates_missingOf set p hp,
        List.singleton_append, insertStates, withPrevious, hstill, List.map_append,
        List.map_singleton, hcopied, List.append_assoc]
    | some stored =>
      have hmissing : missingOf set (.step p inverse typeId q n) = [] :=
        if_neg (by rw [h]; exact Option.some_ne_none _)
      have hcopied : copied set (.step p inverse typeId q n) = stored := by
        rw [copied, h]
        rfl
      rw [hmissing, hcopied, List.map_nil, List.append_nil, List.nil_append, baseOf, h,
        Option.some_or]

theorem findState_copied (h : findState set s.key = none) (hnodup : s.keyChain.Nodup) :
    missingOf set s ≠ [] ∧
      findState (set ++ (missingOf set s).map (copied set)) s.key = some (copied set s) := by
  have hfound : ∀ t : SearchState, t.key = s.key → findState [t] s.key = some t := fun t ht =>
    List.find?_cons_of_pos (by simpa using ht)
  cases s with
  | root q n =>
    have hmissing : missingOf set (.root q n) = [.root q n] := if_pos h
    rw [hmissing, List.map_singleton, findState_append, h, Option.none_or]
    exact ⟨List.cons_ne_nil _ _, hfound _ (key_copied set _)⟩
  | step p inverse typeId q n =>
    have hmissing : missingOf set (.step p inverse typeId q n) =
        missingOf set p ++ [.step p inverse typeId q n] := if_pos h
    have hstill := findState_copies h (List.nodup_cons.mp hnodup).1
    rw [hmissing, List.map_append, List.map_singleton, ← List.append_assoc, findState_append,
      hstill, Option.none_or]
    exact ⟨List.append_ne_nil_of_right_ne_nil _ (List.cons_ne_nil _ _),
      hfound _ (key_copied set _)⟩

theorem walk_copied_iff (set : List SearchState) :
    ∀ s : SearchState, (copied set s).walk = s.walk ↔ Agrees set s
  | .root q n => by
    unfold copied Agrees
    cases findState set (q, n) with
    | none => simp
    | some stored => simp
  | .step p inverse typeId q n => by
    unfold copied Agrees
    cases findState set (q, n) with
    | none =>
      rw [Option.getD_none, ← walk_copied_iff set p, SearchState.walk, SearchState.walk,
        Prod.mk.injEq, List.append_left_inj, Prod.ext_iff]
    | some stored => rfl

theorem print_path {m : PathManager} {index : Nat} (h : index < 2 ^ 48) :
    m.print (maskPath ||| index) = m.paths[index]?.map SearchState.walk := by
  have hsmall : ∀ i, 48 ≤ i → index.testBit i = false := fun i hi =>
    Nat.testBit_lt_two_pow (h.trans_le (Nat.pow_le_pow_right (by decide) hi))
  have htype : (maskPath ||| index) &&& pathTypeMask = 0 := by
    rw [Nat.and_or_distrib_right, show maskPath &&& pathTypeMask = 0 by decide, Nat.zero_or]
    apply Nat.eq_of_testBit_eq
    intro i
    rw [Nat.testBit_and, Nat.zero_testBit]
    by_cases hi : 48 ≤ i
    · rw [hsmall i hi, Bool.false_and]
    · unfold pathTypeMask
      rw [Nat.testBit_shiftLeft, decide_eq_false hi, Bool.false_and, Bool.and_false]
  have hindex : (maskPath ||| index) &&& pathIndexMask = index := by
    rw [Nat.and_or_distrib_right, show maskPath &&& pathIndexMask = 0 by decide, Nat.zero_or]
    unfold pathIndexMask
    rw [Nat.and_two_pow_sub_one_eq_mod, Nat.mod_eq_of_lt h]
  unfold print
  rw [if_pos htype, hindex]
  cases m.paths[index]? with
  | none => rfl
  | some s => exact congrArg some s.getPath_eq_walk

theorem setPath_of_missing {m : PathManager} (c : Call)
    (h : findState (m.statesMaterialized c.pathVar) c.state.key = none) :
    m.setPath c.state c.pathVar = some (maskPath ||| m.paths.length,
      ⟨Function.update m.statesMaterialized c.pathVar
        (m.statesMaterialized c.pathVar ++
          (missingOf (m.statesMaterialized c.pathVar) c.state).map
            (copied (m.statesMaterialized c.pathVar))),
        m.paths ++ [copied (m.statesMaterialized c.pathVar) c.state]⟩) := by
  obtain ⟨hne, hfound⟩ := findState_copied h c.visited_once
  have hstored := insertStates_missingOf (m.statesMaterialized c.pathVar) c.state c.visited_once []
  rw [List.append_nil] at hstored
  unfold setPath
  rw [missingStates_eq, List.append_nil]
  dsimp only
  rw [if_neg hne, hstored, insertStates, hfound]
  rfl

theorem setPath_of_stored {m : PathManager} {c : Call}
    (h : findState (m.statesMaterialized c.pathVar) c.state.key ≠ none) :
    m.setPath c.state c.pathVar = none := by
  have hmissing : missingOf (m.statesMaterialized c.pathVar) c.state = [] := by
    revert h
    cases c.state with
    | root q n => exact fun h => if_neg h
    | step p inverse typeId q n => exact fun h => if_neg h
  unfold setPath
  rw [missingStates_eq, hmissing]
  rfl

/-- A call returns an id that is printed as the walk just if its last state is not stored and the
path agrees with what is. -/
theorem setPath_prints_iff {m : PathManager} (c : Call) (hroom : m.paths.length < 2 ^ 48) :
    (∃ r, m.setPath c.state c.pathVar = some r ∧ r.2.print r.1 = some c.state.walk) ↔
      Fresh m c := by
  by_cases h : findState (m.statesMaterialized c.pathVar) c.state.key = none
  · have hprint : ∀ r, m.setPath c.state c.pathVar = some r →
        r.2.print r.1 = some (copied (m.statesMaterialized c.pathVar) c.state).walk := by
      intro r hr
      rw [setPath_of_missing c h] at hr
      rw [← Option.some.inj hr, print_path hroom, List.getElem?_concat_length, Option.map_some]
    constructor
    · intro ⟨r, hr, hwalk⟩
      rw [hprint r hr] at hwalk
      exact ⟨hroom, h, (walk_copied_iff _ _).mp (Option.some.inj hwalk)⟩
    · intro hfresh
      refine ⟨_, setPath_of_missing c h, ?_⟩
      rw [hprint _ (setPath_of_missing c h), (walk_copied_iff _ _).mpr hfresh.agrees]
  · rw [setPath_of_stored h]
    exact iff_of_false (fun ⟨_, hr, _⟩ => absurd hr (Option.some_ne_none _).symm)
      fun hfresh => h hfresh.missing

theorem paths_prefix : ∀ {calls : List Call} {m m' : PathManager} {ids : List Nat},
    run m calls = some (ids, m') → m.paths <+: m'.paths
  | [], m, m', ids, h => by
    rw [← (Prod.mk.inj (Option.some.inj h)).2]
  | c :: calls, m, m', ids, h => by
    unfold run at h
    obtain ⟨r, hr, hrest⟩ := Option.bind_eq_some_iff.mp h
    obtain ⟨rest, hrun, heq⟩ := Option.map_eq_some_iff.mp hrest
    have hlater := paths_prefix hrun
    rw [(Prod.mk.inj heq).2] at hlater
    by_cases hmissing : findState (m.statesMaterialized c.pathVar) c.state.key = none
    · rw [setPath_of_missing c hmissing] at hr
      rw [← Option.some.inj hr] at hlater
      exact (List.prefix_append _ _).trans hlater
    · rw [setPath_of_stored hmissing] at hr
      exact absurd hr (Option.some_ne_none _).symm

theorem print_first {m m' : PathManager} {c : Call} {r : Nat × PathManager} {calls : List Call}
    {ids : List Nat} (hroom : m.paths.length < 2 ^ 48)
    (hr : m.setPath c.state c.pathVar = some r) (hrun : run r.2 calls = some (ids, m')) :
    m'.print r.1 = r.2.print r.1 := by
  by_cases hmissing : findState (m.statesMaterialized c.pathVar) c.state.key = none
  · rw [setPath_of_missing c hmissing] at hr
    obtain ⟨later, hlater⟩ := paths_prefix hrun
    rw [← Option.some.inj hr] at hlater ⊢
    rw [print_path hroom, print_path hroom, ← hlater, List.getElem?_append_left (by simp)]
  · rw [setPath_of_stored hmissing] at hr
    exact absurd hr (Option.some_ne_none _).symm

theorem run_prints : ∀ (calls : List Call) (m : PathManager), AllFresh m calls →
    PrintsWalks m calls
  | [], m, _ => ⟨[], m, rfl, .nil⟩
  | c :: calls, m, ⟨hfresh, hrest⟩ => by
    obtain ⟨r, hr, hprint⟩ := (setPath_prints_iff c hfresh.room).mpr hfresh
    obtain ⟨ids, m', hrun, hall⟩ := run_prints calls r.2 (hrest r hr)
    refine ⟨r.1 :: ids, m', ?_, .cons ?_ hall⟩
    · rw [run, hr, Option.bind_some, hrun, Option.map_some]
    · rw [print_first hfresh.room hr hrun]
      exact hprint

theorem allFresh_of_prints : ∀ (calls : List Call) (m : PathManager),
    m.paths.length + calls.length ≤ 2 ^ 48 → PrintsWalks m calls → AllFresh m calls
  | [], _, _, _ => trivial
  | c :: calls, m, hlength, ⟨ids, m', hrun, hall⟩ => by
    rw [List.length_cons] at hlength
    have hroom : m.paths.length < 2 ^ 48 := by omega
    unfold run at hrun
    obtain ⟨r, hr, hrest⟩ := Option.bind_eq_some_iff.mp hrun
    obtain ⟨rest, hlater, heq⟩ := Option.map_eq_some_iff.mp hrest
    obtain ⟨rfl, rfl⟩ := Prod.mk.inj heq
    rw [List.forall₂_cons, print_first hroom hr hlater] at hall
    have hfresh := (setPath_prints_iff c hroom).mp ⟨r, hr, hall.1⟩
    refine ⟨hfresh, fun r' hr' => ?_⟩
    have hsame : r' = r := Option.some.inj ((Option.mem_def.mp hr').symm.trans hr)
    rw [hsame]
    apply allFresh_of_prints calls r.2 _ ⟨rest.1, rest.2, hlater, hall.2⟩
    rw [setPath_of_missing c hfresh.missing] at hr
    rw [← Option.some.inj hr, List.length_append, List.length_singleton]
    omega

theorem AllFresh.take : ∀ {calls : List Call} {m : PathManager}, AllFresh m calls → ∀ n,
    AllFresh m (calls.take n)
  | [], m, _, n => by
    rw [List.take_nil]
    trivial
  | c :: calls, m, _, 0 => trivial
  | c :: calls, m, h, n + 1 => ⟨h.1, fun r hr => (h.2 r hr).take n⟩

/-- After every call of a run in which each path is fresh, all ids are printed as the walks that
they were returned for; up to the largest index, in no other run. -/
theorem ids_print_walks (calls : List Call) :
    (AllFresh begin calls → ∀ n, PrintsWalks begin (calls.take n)) ∧
      (calls.length ≤ 2 ^ 48 → PrintsWalks begin calls → AllFresh begin calls) :=
  ⟨fun h n => run_prints _ _ (h.take n), fun hlength => allFresh_of_prints calls begin
    ((Nat.zero_add calls.length).symm ▸ hlength)⟩

def twoEdges (start stop : Nat) : Call where
  state := .step (.step (.root 0 start) false 10 1 3) true 11 2 stop
  pathVar := 0
  visited_once := by simp [SearchState.keyChain]

theorem prints_twoEdges (n : Nat) : PrintsWalks begin ([twoEdges 1 4, twoEdges 1 5].take n) := by
  have hfresh : AllFresh begin [twoEdges 1 4, twoEdges 1 5] := by
    refine ⟨⟨by decide, rfl, (walk_copied_iff _ _).mp (by decide)⟩, fun r hr => ⟨⟨?_, ?_, ?_⟩,
      fun _ _ => trivial⟩⟩
    all_goals rw [← Option.some.inj (Option.mem_def.mp hr)]
    · decide
    · decide
    · exact (walk_copied_iff _ _).mp (by decide)
  exact (ids_print_walks _).1 hfresh n

/-- The second path is printed with the start node of the first one. -/
theorem prints_other_start : ¬ PrintsWalks begin [twoEdges 1 4, twoEdges 2 5] := by
  intro h
  have hfresh := allFresh_of_prints _ begin (by decide) h
  have hr := setPath_of_missing (m := begin) (twoEdges 1 4) rfl
  have hagrees := (walk_copied_iff _ _).mpr (hfresh.2 _ hr).1.agrees
  exact absurd hagrees (by decide)

end

end PathManager
end Paths
end MillenniumDB
