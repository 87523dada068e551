import Mathlib.Data.List.TakeWhile
import MillenniumDB.BfsIterEnum
import MillenniumDB.EdgeTable

/-!
# `UnfixedComposite`

The operator for a path with two free ends.  It takes start nodes from the edges of the types
on the first transitions, in forward direction only, and runs one `BFSIterEnum` from each of
them.  The enumeration is created in `begin`, from the first transition alone.
-/

namespace MillenniumDB

abbrev PathRow := Binding × Paths.SearchState

def QuadModel.typeRange (G : QuadModel) (typeId : Nat) : List Record4 :=
  G.typeFromToEdge.filter fun r => r.1 = typeId

namespace Paths

structure UnfixedComposite where
  binding : Binding
  currentStartTransition : Nat
  startIter : List Record4
  currentStartRecord : Option Record4
  visited : List Nat
  pathEnum : Option IterEnum

namespace UnfixedComposite

/-- `begin`.  There is no state when the row of the start state is read past its end. -/
def start (G : QuadModel) (A : RPQAutomaton) (startVar : Nat) (b : Binding) :
    Option UnfixedComposite :=
  ((A.fromTo 0)[0]?).map fun t =>
    match G.typeRange t.typeId with
    | [] => ⟨b, 0, [], none, [], none⟩
    | r :: rs => ⟨Function.update b startVar r.2.1, 0, rs, some r, [r.2.1], some (.start r.2.1)⟩

/-- A record for a start node becomes the current one.  There is no state when the path
enumeration is reset that was never created. -/
def enterStart (startVar : Nat) (st : UnfixedComposite) (r : Record4) (rs : List Record4) :
    Option UnfixedComposite :=
  let st := { st with startIter := rs, currentStartRecord := some r }
  if r.2.1 ∈ st.visited then some st
  else st.pathEnum.map fun _ => { st with
    visited := r.2.1 :: st.visited
    binding := Function.update st.binding startVar r.2.1
    pathEnum := some (.start r.2.1) }

/-- `path_enum != nullptr && path_enum->next()`. -/
def enumNext (G : QuadModel) (A : RPQAutomaton) (limit : Nat) :
    Option IterEnum → Option SearchState × Option IterEnum
  | none => (none, none)
  | some e => ((BFSIterEnum.next G A limit e).1, some (BFSIterEnum.next G A limit e).2)

/-- `current_start_transition++`, with the iterator and the record exhausted. -/
def nextTransition (st : UnfixedComposite) : UnfixedComposite := { st with
  currentStartTransition := st.currentStartTransition + 1, startIter := []
  currentStartRecord := none }

/-- The records from the next start node on: those left in the iterator behind the current
node, or those of the next transition when there is one. -/
def nextStart (G : QuadModel) (A : RPQAutomaton) (st : UnfixedComposite) :
    UnfixedComposite × Option (List Record4) :=
  match st.startIter.dropWhile fun r => st.currentStartRecord.any fun c => r.2.1 = c.2.1 with
  | r :: rs => (st, some (r :: rs))
  | [] => (nextTransition st,
      ((A.fromTo 0)[st.currentStartTransition + 1]?).map fun t => G.typeRange t.typeId)

/-- The loop of `next`. -/
def loop (G : QuadModel) (A : RPQAutomaton) (startVar endVar limit : Nat) :
    Nat → UnfixedComposite → Option (Option PathRow) × Option UnfixedComposite
  | 0, st => (none, some st)
  | fuel + 1, st =>
    match enumNext G A limit st.pathEnum with
    | (some r, e) =>
      let b := Function.update st.binding endVar r.nodeId
      (some (some (b, r)), some { st with binding := b, pathEnum := e })
    | (none, e) =>
      match nextStart G A { st with pathEnum := e } with
      | (st', none) => (none, some st')
      | (st', some []) => loop G A startVar endVar limit fuel st'
      | (st', some (r :: rs)) =>
        match enterStart startVar st' r rs with
        | none => (some none, none)
        | some st'' => loop G A startVar endVar limit fuel st''

/-- `UnfixedComposite::next`; the result `some none` is the use of a null pointer. -/
def next (G : QuadModel) (A : RPQAutomaton) (startVar endVar fuel : Nat) :
    Option UnfixedComposite → Option (Option PathRow) × Option UnfixedComposite
  | none => (some none, none)
  | some st => loop G A startVar endVar fuel fuel st

def freshStarts : List Nat → List Nat → List Nat
  | _, [] => []
  | visited, n :: ns =>
    if n ∈ visited then freshStarts visited ns else n :: freshStarts (n :: visited) ns

def sources (G : QuadModel) (ts : List Transition) : List Nat :=
  ts.flatMap fun t => (G.typeRange t.typeId).map (·.2.1)

def roundFuel (G : QuadModel) (A : RPQAutomaton) : Nat :=
  (sources G (A.fromTo 0)).length + (A.fromTo 0).length + 1

def rowFor (b : Binding) (startVar endVar n : Nat) (r : SearchState) : PathRow :=
  (Function.update (Function.update b startVar n) endVar r.nodeId, r)

section

variable {G : QuadModel} {A : RPQAutomaton} {startVar endVar limit fuel n : Nat} {b : Binding}
  {visited ns : List Nat} {st : UnfixedComposite} {ts : List Transition}
  {results : Nat → List SearchState}

theorem mem_freshStarts : n ∈ freshStarts visited ns ↔ n ∈ ns ∧ n ∉ visited := by
  induction ns generalizing visited with
  | nil => simp [freshStarts]
  | cons k ns ih =>
    by_cases hk : k ∈ visited
    · rw [freshStarts, if_pos hk, ih, List.mem_cons]
      grind
    · rw [freshStarts, if_neg hk, List.mem_cons, ih, List.mem_cons, List.mem_cons]
      grind

theorem freshStarts_append_of_mem {ms : List Nat} (h : ∀ m ∈ ms, m ∈ visited) (ns : List Nat) :
    freshStarts visited (ms ++ ns) = freshStarts visited ns := by
  induction ms with
  | nil => rfl
  | cons m ms ih =>
    obtain ⟨hm, hms⟩ := List.forall_mem_cons.mp h
    rw [List.cons_append, freshStarts, if_pos hm, ih hms]

def laterStarts (G : QuadModel) (A : RPQAutomaton) (st : UnfixedComposite) : List Nat :=
  st.startIter.map (·.2.1) ++ sources G ((A.fromTo 0).drop (st.currentStartTransition + 1))

def laterRounds (G : QuadModel) (A : RPQAutomaton) (st : UnfixedComposite) : Nat :=
  (laterStarts G A st).length + ((A.fromTo 0).drop (st.currentStartTransition + 1)).length

def rowsFrom (b : Binding) (startVar endVar : Nat) (results : Nat → List SearchState)
    (visited ns : List Nat) : List PathRow :=
  (freshStarts visited ns).flatMap fun n => (results n).map (rowFor b startVar endVar n)

/-- What the operator is going to return once it has an enumeration, with fuel for every
round. -/
def Returns (G : QuadModel) (A : RPQAutomaton) (startVar endVar limit : Nat) (b : Binding)
    (results : Nat → List SearchState) (st : UnfixedComposite) (rows : List PathRow) : Prop :=
  ∃ n e found, st.pathEnum = some e ∧ Yields (BFSIterEnum.next G A limit) e found ∧
    (∀ m, Function.update st.binding endVar m =
      Function.update (Function.update b startVar n) endVar m) ∧
    (∀ c ∈ st.currentStartRecord, c.2.1 ∈ st.visited) ∧ laterRounds G A st < limit ∧
    rows = found.map (rowFor b startVar endVar n) ++
      rowsFrom b startVar endVar results st.visited (laterStarts G A st)

theorem update_update_start {b' : Binding} (h : ∀ m, Function.update b' endVar m =
    Function.update (Function.update b startVar n) endVar m) (k m : Nat) :
    Function.update (Function.update b' startVar k) endVar m =
      Function.update (Function.update b startVar k) endVar m := by
  funext v
  by_cases hend : v = endVar
  · subst hend
    simp
  · by_cases hstart : v = startVar
    · subst hstart
      simp [hend]
    · have hv := congrFun (h m) v
      simpa [hend, hstart] using hv

theorem freshStarts_dropWhile (hcurrent : ∀ c ∈ st.currentStartRecord, c.2.1 ∈ st.visited)
    (ns : List Nat) : freshStarts st.visited (st.startIter.map (·.2.1) ++ ns) =
      freshStarts st.visited ((st.startIter.dropWhile fun r =>
        st.currentStartRecord.any fun c => r.2.1 = c.2.1).map (·.2.1) ++ ns) := by
  have hsplit := List.takeWhile_append_dropWhile (l := st.startIter)
    (p := fun r => st.currentStartRecord.any fun c => r.2.1 = c.2.1)
  conv_lhs => rw [← hsplit]
  rw [List.map_append, List.append_assoc]
  apply freshStarts_append_of_mem
  intro m hm
  obtain ⟨r, hr, rfl⟩ := List.mem_map.mp hm
  have hskip := List.mem_takeWhile_imp hr
  cases hc : st.currentStartRecord with
  | none => simp [hc] at hskip
  | some c =>
    have heq : r.2.1 = c.2.1 := by simpa [hc] using hskip
    rw [heq]
    exact hcurrent c hc

theorem drop_eq_cons {k : Nat} {t : Transition} (h : (A.fromTo 0)[k]? = some t) :
    (A.fromTo 0).drop k = t :: (A.fromTo 0).drop (k + 1) := by
  obtain ⟨hlt, ht⟩ := List.getElem?_eq_some_iff.mp h
  rw [List.drop_eq_getElem_cons hlt, ht]

/-- Moving to the next start node skips visited nodes, and it uses up a round when it moves to
the next transition. -/
theorem nextStart_cases (hcurrent : ∀ c ∈ st.currentStartRecord, c.2.1 ∈ st.visited) :
    (∃ r rs, nextStart G A st = (st, some (r :: rs)) ∧
      freshStarts st.visited (laterStarts G A st) =
        freshStarts st.visited (laterStarts G A { st with startIter := r :: rs }) ∧
      laterRounds G A { st with startIter := r :: rs } ≤ laterRounds G A st) ∨
    ∃ st', st' = nextTransition st ∧
      ((∃ rs, nextStart G A st = (st', some rs) ∧
        freshStarts st.visited (laterStarts G A st) =
          freshStarts st.visited (laterStarts G A { st' with startIter := rs }) ∧
        laterRounds G A { st' with startIter := rs } < laterRounds G A st) ∨
      (nextStart G A st = (st', none) ∧ freshStarts st.visited (laterStarts G A st) = [] ∧
        laterStarts G A st' = [] ∧ laterRounds G A st' ≤ laterRounds G A st)) := by
  have hfresh := freshStarts_dropWhile hcurrent
  have hlength := (List.dropWhile_sublist (l := st.startIter)
    fun r => st.currentStartRecord.any fun c => r.2.1 = c.2.1).length_le
  unfold nextStart
  cases hdrop : st.startIter.dropWhile fun r => st.currentStartRecord.any fun c => r.2.1 = c.2.1 with
  | cons r rs =>
    left
    refine ⟨r, rs, rfl, ?_, ?_⟩
    · rw [laterStarts, hfresh, hdrop]
      rfl
    · rw [hdrop] at hlength
      simp only [laterRounds, laterStarts, List.length_append, List.length_map]
      omega
  | nil =>
    right
    refine ⟨_, rfl, ?_⟩
    have hnil : freshStarts st.visited (laterStarts G A st) = freshStarts st.visited
        (sources G ((A.fromTo 0).drop (st.currentStartTransition + 1))) := by
      rw [laterStarts, hfresh, hdrop]
      rfl
    rw [hnil]
    cases hrow : (A.fromTo 0)[st.currentStartTransition + 1]? with
    | some t =>
      left
      have hcons := drop_eq_cons hrow
      refine ⟨G.typeRange t.typeId, ?_, ?_, ?_⟩
      · rfl
      · rw [hcons, laterStarts, sources, List.flatMap_cons]
        rfl
      · simp only [laterRounds, laterStarts, nextTransition]
        rw [hcons]
        simp only [sources, List.flatMap_cons, List.length_append, List.length_map, List.length_cons]
        omega
    | none =>
      right
      have hend : (A.fromTo 0).drop (st.currentStartTransition + 1) = [] :=
        List.drop_eq_nil_of_le (List.getElem?_eq_none_iff.mp hrow)
      have hend' : (A.fromTo 0).drop (st.currentStartTransition + 1 + 1) = [] := by
        rw [← List.drop_drop, hend, List.drop_nil]
      refine ⟨?_, ?_, ?_, ?_⟩
      · rfl
      · rw [hend]
        rfl
      · simp [laterStarts, nextTransition, sources, hend']
      · simp [laterRounds, laterStarts, nextTransition, sources, hend']

theorem enumNext_of_yields {e : IterEnum} {found : List SearchState}
    (h : Yields (BFSIterEnum.next G A limit) e found) : ∃ e',
      enumNext G A limit (some e) = (found.head?, some e') ∧
        Yields (BFSIterEnum.next G A limit) e' found.tail := by
  refine ⟨(BFSIterEnum.next G A limit e).2, ?_, ?_⟩
  · have hhead : (BFSIterEnum.next G A limit e).1 = found.head? := by
      rw [List.head?_eq_getElem?, ← h 0]
      rfl
    rw [enumNext, hhead]
  · intro k
    rw [List.getElem?_tail, ← h (k + 1)]
    rfl

theorem loop_spec (hresults : ∀ n, Yields (BFSIterEnum.next G A limit) (.start n) (results n))
    {rows : List PathRow} (h : Returns G A startVar endVar limit b results st rows)
    (hfuel : laterRounds G A st < fuel) :
    ∃ st', loop G A startVar endVar limit fuel st = (rows.head?.map some, some st') ∧
      Returns G A startVar endVar limit b results st' rows.tail := by
  induction fuel generalizing st with
  | zero => omega
  | succ fuel ih =>
    obtain ⟨n, e, found, he, hfound, hb, hcurrent, hlimit, rfl⟩ := h
    obtain ⟨e', hnext, hfound'⟩ := enumNext_of_yields hfound
    rw [loop, he, hnext]
    cases found with
    | cons r found =>
      have hrow := hb r.nodeId
      refine ⟨{ st with binding := Function.update st.binding endVar r.nodeId, pathEnum := some e' },
        ?_, n, e', found, rfl, hfound', fun m => ?_, hcurrent, hlimit, rfl⟩
      · simp [rowFor, hrow]
      · rw [Function.update_idem]
        exact hb m
    | nil =>
      dsimp only [List.head?_nil]
      rw [List.map_nil, List.nil_append]
      -- the record of a visited node only moves on, any other one starts an enumeration
      have henter : ∀ (st₀ : UnfixedComposite) (r : Record4) (rs : List Record4),
          st₀.pathEnum = some e' → st₀.binding = st.binding →
          laterRounds G A { st₀ with startIter := r :: rs } ≤ laterRounds G A st →
          ∃ st', enterStart startVar st₀ r rs = some st' ∧ laterRounds G A st' < laterRounds G A st ∧
            Returns G A startVar endVar limit b results st'
              (rowsFrom b startVar endVar results st₀.visited
                (laterStarts G A { st₀ with startIter := r :: rs })) := by
        intro st₀ r rs he₀ hb₀ hrounds
        have hless : laterRounds G A { st₀ with startIter := rs } < laterRounds G A st := by
          simp only [laterRounds, laterStarts, List.map_cons, List.length_append,
            List.length_cons] at hrounds ⊢
          omega
        have hstarts : laterStarts G A { st₀ with startIter := r :: rs } =
            r.2.1 :: laterStarts G A { st₀ with startIter := rs } := rfl
        unfold enterStart
        by_cases hr : r.2.1 ∈ st₀.visited
        · refine ⟨_, if_pos hr, hless, n, e', [], he₀, hfound', ?_, ?_, hless.trans hlimit, ?_⟩
          · intro m
            dsimp only
            rw [hb₀]
            exact hb m
          · simpa using hr
          · rw [hstarts, rowsFrom, freshStarts, if_pos hr]
            rfl
        · refine ⟨{ st₀ with
            startIter := rs, currentStartRecord := some r, visited := r.2.1 :: st₀.visited
            binding := Function.update st₀.binding startVar r.2.1
            pathEnum := some (.start r.2.1) }, ?_, hless, r.2.1, _, _, rfl, hresults r.2.1, ?_, ?_,
            hless.trans hlimit, ?_⟩
          · dsimp only
            rw [if_neg hr, he₀]
            rfl
          · intro m
            dsimp only
            rw [hb₀]
            exact update_update_start hb _ _
          · simp
          · rw [hstarts, rowsFrom, freshStarts, if_neg hr, List.flatMap_cons]
            rfl
      have hcurrent' : ∀ c ∈ ({ st with pathEnum := some e' } : UnfixedComposite).currentStartRecord,
          c.2.1 ∈ ({ st with pathEnum := some e' } : UnfixedComposite).visited := hcurrent
      rcases nextStart_cases hcurrent' with ⟨r, rs, hmove, hfresh, hrounds⟩ |
        ⟨st', hst', ⟨rs, hmove, hfresh, hrounds⟩ | ⟨hmove, hfresh, hlater, hrounds⟩⟩
      · rw [hmove]
        obtain ⟨st'', hentered, hless, hreturns⟩ := henter { st with pathEnum := some e' } r rs rfl rfl hrounds
        have hrows : rowsFrom b startVar endVar results st.visited
            (laterStarts G A { st with pathEnum := some e', startIter := r :: rs }) =
              rowsFrom b startVar endVar results st.visited (laterStarts G A st) := by
          rw [rowsFrom, rowsFrom]
          exact congrArg _ hfresh.symm
        rw [hrows] at hreturns
        simp only [hentered]
        exact ih hreturns (by omega)
      · rw [hmove]
        cases rs with
        | nil =>
          have hless : laterRounds G A st' < laterRounds G A st := by
            subst hst'
            exact hrounds
          refine ih ⟨n, e', [], by rw [hst', nextTransition], hfound', ?_, ?_, hless.trans hlimit, ?_⟩ (by omega)
          · intro m
            rw [hst', nextTransition]
            exact hb m
          · simp [hst', nextTransition]
          · rw [List.map_nil, List.nil_append, rowsFrom, rowsFrom]
            subst hst'
            exact congrArg _ hfresh
        | cons r rs =>
          obtain ⟨st'', hentered, hless, hreturns⟩ :=
            henter st' r rs (by rw [hst', nextTransition]) (by rw [hst', nextTransition]) hrounds.le
          have hrows : rowsFrom b startVar endVar results st'.visited
              (laterStarts G A { st' with startIter := r :: rs }) =
                rowsFrom b startVar endVar results st.visited (laterStarts G A st) := by
            rw [rowsFrom, rowsFrom]
            subst hst'
            exact congrArg _ hfresh.symm
          rw [hrows] at hreturns
          simp only [hentered]
          exact ih hreturns (by omega)
      · rw [hmove]
        have hnone : rowsFrom b startVar endVar results st.visited (laterStarts G A st) = [] := by
          rw [rowsFrom]
          exact (congrArg _ hfresh).trans List.flatMap_nil
        have hrows : rowsFrom b startVar endVar results st'.visited (laterStarts G A st') = [] := by
          rw [hlater]
          rfl
        rw [hnone]
        refine ⟨st', rfl, n, e', [], by rw [hst', nextTransition], hfound', ?_, by simp [hst', nextTransition], ?_, ?_⟩
        · intro m
          rw [hst', nextTransition]
          exact hb m
        · exact hrounds.trans_lt hlimit
        · rw [hrows]
          rfl

theorem Returns.yields (hresults : ∀ n, Yields (BFSIterEnum.next G A limit) (.start n) (results n))
    {rows : List PathRow} (h : Returns G A startVar endVar limit b results st rows) :
    Yields (next G A startVar endVar limit) (some st) (rows.map some) := by
  have hcall : ∀ st rows, Returns G A startVar endVar limit b results st rows →
      ∃ st', next G A startVar endVar limit (some st) = (rows.head?.map some, some st') ∧
        Returns G A startVar endVar limit b results st' rows.tail := by
    intro st rows h
    obtain ⟨n, e, found, he, hfound, hb, hcurrent, hlimit, hrows⟩ := h
    exact loop_spec hresults ⟨n, e, found, he, hfound, hb, hcurrent, hlimit, hrows⟩ hlimit
  refine .of_relation (fun st out => ∃ u rows, st = some u ∧ out = rows.map some ∧
    Returns G A startVar endVar limit b results u rows) ?_ ?_ ⟨st, rows, rfl, rfl, h⟩
  · intro _ ⟨u, rows, hu, hnil, h⟩
    obtain rfl : rows = [] := List.map_eq_nil_iff.mp hnil.symm
    obtain ⟨u', hnext, h'⟩ := hcall u [] h
    rw [hu, hnext]
    exact ⟨rfl, u', [], rfl, rfl, h'⟩
  · intro _ r out ⟨u, rows, hu, hcons, h⟩
    obtain ⟨row, rows, rfl, rfl, rfl⟩ := List.map_eq_cons_iff.mp hcons.symm
    obtain ⟨u', hnext, h'⟩ := hcall u _ h
    rw [hu, hnext]
    exact ⟨rfl, u', rows, rfl, rfl, h'⟩

theorem yields_start (hresults : ∀ n, Yields (BFSIterEnum.next G A limit) (.start n) (results n))
    {t : Transition} (hrow : A.fromTo 0 = t :: ts) (hfirst : G.typeRange t.typeId ≠ [])
    (hlimit : roundFuel G A ≤ limit) :
    Yields (next G A startVar endVar limit) (start G A startVar b)
      ((rowsFrom b startVar endVar results [] (sources G (A.fromTo 0))).map some) := by
  cases hrange : G.typeRange t.typeId with
  | nil => exact absurd hrange hfirst
  | cons r rs =>
    have hstart : start G A startVar b = some
        ⟨Function.update b startVar r.2.1, 0, rs, some r, [r.2.1], some (.start r.2.1)⟩ := by
      simp [start, hrow, hrange]
    have hsources : sources G (A.fromTo 0) = r.2.1 :: (rs.map (·.2.1) ++ sources G ts) := by
      rw [hrow, sources, List.flatMap_cons, hrange]
      rfl
    rw [hstart]
    apply Returns.yields hresults
    refine ⟨r.2.1, _, _, rfl, hresults r.2.1, fun m => rfl, by simp, ?_, ?_⟩
    · have hlength := congrArg List.length hsources
      have hrows := congrArg List.length hrow
      simp only [List.length_cons, List.length_append, List.length_map] at hlength hrows
      simp only [roundFuel] at hlimit
      simp only [laterRounds, laterStarts, hrow, List.length_append, List.length_map, Nat.zero_add,
        List.drop_succ_cons, List.drop_zero]
      omega
    · rw [hsources, rowsFrom, freshStarts, if_neg List.not_mem_nil, List.flatMap_cons]
      simp [rowsFrom, laterStarts, hrow]

/-- No enumeration was created, and the current iterator is exhausted. -/
structure Unstarted (st : UnfixedComposite) : Prop where
  pathEnum : st.pathEnum = none
  startIter : st.startIter = []
  visited : st.visited = []

theorem loop_unstarted (h : Unstarted st) : loop G A startVar endVar limit (fuel + 1) st =
    match (A.fromTo 0)[st.currentStartTransition + 1]? with
    | none => (none, some (nextTransition st))
    | some t =>
      if G.typeRange t.typeId = [] then loop G A startVar endVar limit fuel (nextTransition st)
      else (some none, none) := by
  have hnext : nextStart G A st = (nextTransition st,
      ((A.fromTo 0)[st.currentStartTransition + 1]?).map fun t => G.typeRange t.typeId) := by
    simp [nextStart, h.startIter]
  have hsame : ({ st with pathEnum := none } : UnfixedComposite) = st := by
    rw [← h.pathEnum]
  rw [loop, h.pathEnum, enumNext]
  dsimp only
  rw [hsame, hnext]
  cases (A.fromTo 0)[st.currentStartTransition + 1]? with
  | none => rfl
  | some t =>
    cases hrange : G.typeRange t.typeId with
    | nil => simp [hrange]
    | cons r rs => simp [hrange, enterStart, nextTransition, h.visited, h.pathEnum]

theorem Unstarted.nextTransition (h : Unstarted st) : Unstarted (nextTransition st) :=
  ⟨h.pathEnum, rfl, h.visited⟩

theorem loop_idle (h : Unstarted st)
    (hnone : sources G ((A.fromTo 0).drop (st.currentStartTransition + 1)) = [])
    (hfuel : ((A.fromTo 0).drop (st.currentStartTransition + 1)).length < fuel) :
    ∃ st', loop G A startVar endVar limit fuel st = (none, some st') ∧ Unstarted st' ∧
      (A.fromTo 0).drop (st'.currentStartTransition + 1) = [] := by
  induction fuel generalizing st with
  | zero => omega
  | succ fuel ih =>
    rw [loop_unstarted h]
    cases hrow : (A.fromTo 0)[st.currentStartTransition + 1]? with
    | none =>
      refine ⟨_, rfl, h.nextTransition, ?_⟩
      apply List.drop_eq_nil_of_le
      have hle := List.getElem?_eq_none_iff.mp hrow
      show _ ≤ st.currentStartTransition + 1 + 1
      omega
    | some t =>
      rw [drop_eq_cons hrow] at hnone hfuel
      rw [sources, List.flatMap_cons, List.append_eq_nil_iff, List.map_eq_nil_iff] at hnone
      dsimp only
      rw [if_pos hnone.1]
      exact ih h.nextTransition hnone.2 (by simpa [UnfixedComposite.nextTransition] using hfuel)

theorem loop_null (h : Unstarted st)
    (hsome : sources G ((A.fromTo 0).drop (st.currentStartTransition + 1)) ≠ [])
    (hfuel : ((A.fromTo 0).drop (st.currentStartTransition + 1)).length < fuel) :
    loop G A startVar endVar limit fuel st = (some none, none) := by
  induction fuel generalizing st with
  | zero => omega
  | succ fuel ih =>
    rw [loop_unstarted h]
    cases hrow : (A.fromTo 0)[st.currentStartTransition + 1]? with
    | none =>
      rw [List.drop_eq_nil_of_le (List.getElem?_eq_none_iff.mp hrow)] at hsome
      exact absurd rfl hsome
    | some t =>
      rw [drop_eq_cons hrow] at hsome hfuel
      dsimp only
      by_cases hrange : G.typeRange t.typeId = []
      · rw [if_pos hrange]
        refine ih h.nextTransition ?_ (by simpa [UnfixedComposite.nextTransition] using hfuel)
        simpa [sources, hrange, UnfixedComposite.nextTransition] using hsome
      · rw [if_neg hrange]

theorem yields_nil {t : Transition} (hrow : A.fromTo 0 = t :: ts)
    (hnone : sources G (A.fromTo 0) = []) (hlimit : roundFuel G A ≤ limit) :
    Yields (next G A startVar endVar limit) (start G A startVar b) [] := by
  have hlength : ts.length < limit := by
    simp only [roundFuel, hrow, List.length_cons] at hlimit
    omega
  rw [hrow, sources, List.flatMap_cons, List.append_eq_nil_iff, List.map_eq_nil_iff] at hnone
  have hstart : start G A startVar b = some ⟨b, 0, [], none, [], none⟩ := by
    simp [start, hrow, hnone.1]
  have hdrop : (A.fromTo 0).drop 1 = ts := by rw [hrow, List.drop_one, List.tail_cons]
  rw [hstart]
  refine .nil_of_invariant (fun st => ∃ u, st = some u ∧ Unstarted u ∧
    sources G ((A.fromTo 0).drop (u.currentStartTransition + 1)) = [] ∧
      ((A.fromTo 0).drop (u.currentStartTransition + 1)).length < limit) ?_
    ⟨_, rfl, ⟨rfl, rfl, rfl⟩, hdrop ▸ hnone.2, hdrop ▸ hlength⟩
  intro _ ⟨u, hu, hun, hlater, hfuel⟩
  obtain ⟨u', hloop, hun', hend⟩ : ∃ u', loop G A startVar endVar limit limit u = (none, some u') ∧
      Unstarted u' ∧ (A.fromTo 0).drop (u'.currentStartTransition + 1) = [] :=
    loop_idle hun hlater hfuel
  rw [hu, next, hloop]
  refine ⟨rfl, u', rfl, hun', by rw [hend]; rfl, ?_⟩
  rw [hend, List.length_nil]
  omega

theorem next_start_null {t : Transition} (hrow : A.fromTo 0 = t :: ts)
    (hfirst : G.typeRange t.typeId = []) (hsome : sources G (A.fromTo 0) ≠ [])
    (hlimit : roundFuel G A ≤ limit) :
    (next G A startVar endVar limit (start G A startVar b)).1 = some none := by
  have hlength : ts.length < limit := by
    simp only [roundFuel, hrow, List.length_cons] at hlimit
    omega
  have hstart : start G A startVar b = some ⟨b, 0, [], none, [], none⟩ := by
    simp [start, hrow, hfirst]
  have hlater : sources G ts ≠ [] := by
    simpa [hrow, sources, hfirst] using hsome
  have hdrop : (A.fromTo 0).drop 1 = ts := by rw [hrow, List.drop_one, List.tail_cons]
  have hnull : loop G A startVar endVar limit limit ⟨b, 0, [], none, [], none⟩ = (some none, none) :=
    loop_null ⟨rfl, rfl, rfl⟩ (hdrop ▸ hlater) (hdrop ▸ hlength)
  rw [hstart, next, hnull]

theorem next_start_of_nil (hrow : A.fromTo 0 = []) :
    (next G A startVar endVar limit (start G A startVar b)).1 = some none := by
  simp [start, hrow, next]

/-- Once the operator has an enumeration, or has no start node, it returns a row for every
start node and every node that it reaches. -/
theorem yields_rowsFrom {results : Nat → List SearchState} {t : Transition} {ts : List Transition}
    (hresults : ∀ n, Yields (BFSIterEnum.next G A fuel) (.start n) (results n))
    (hrow : A.fromTo 0 = t :: ts)
    (hbegins : G.typeRange t.typeId = [] → sources G ts = [])
    (hfuel : roundFuel G A ≤ fuel) :
    Yields (next G A startVar endVar fuel) (start G A startVar b)
      ((rowsFrom b startVar endVar results []
        (sources G (A.fromTo 0))).map some) := by
  by_cases hfirst : G.typeRange t.typeId = []
  · have hnone : sources G (A.fromTo 0) = [] := by
      rw [hrow, sources, List.flatMap_cons, hfirst]
      exact hbegins hfirst
    have hyields : Yields (next G A startVar endVar fuel) (start G A startVar b) [] :=
      yields_nil hrow hnone hfuel
    rw [hnone]
    exact hyields
  · exact yields_start hresults hrow hfirst hfuel

theorem begins_of_yields {rows : List PathRow}
    (h : Yields (next G A startVar endVar fuel) (start G A startVar b)
      (rows.map some)) (hfuel : roundFuel G A ≤ fuel) :
    ∃ t ts, A.fromTo 0 = t :: ts ∧
      (G.typeRange t.typeId = [] → sources G ts = []) := by
  have hfirst : (next G A startVar endVar fuel (start G A startVar b)).1 ≠
      some none := by
    intro heq
    have hhead : some none = (rows.map some)[0]? := heq.symm.trans (h 0)
    cases rows <;> simp at hhead
  cases hrow : A.fromTo 0 with
  | nil => exact absurd (next_start_of_nil hrow) hfirst
  | cons t ts =>
    refine ⟨t, ts, rfl, fun hrange => ?_⟩
    by_contra hlater
    refine hfirst (next_start_null hrow hrange ?_ hfuel)
    rw [hrow, sources, List.flatMap_cons, hrange]
    exact hlater

def ends (startVar endVar : Nat) (row : PathRow) : Nat × Nat := (row.1 startVar, row.1 endVar)

/-- The operator returns every pair of nodes that an accepted walk joins, once, and uses no null
pointer. -/
def ReturnsPairs (G : QuadModel) (A : RPQAutomaton) (startVar endVar fuel : Nat) (b : Binding) : Prop :=
  ∃ rows : List PathRow,
    Yields (next G A startVar endVar fuel) (start G A startVar b) (rows.map some) ∧
      (rows.map (ends startVar endVar)).Nodup ∧
      ∀ n m, (n, m) ∈ rows.map (ends startVar endVar) ↔ Answer G A n m

/-- There is a first transition, `begin` finds an edge of its type unless no first transition has
one, and all starts are sources of edges of the first types. -/
structure FindsStarts (G : QuadModel) (A : RPQAutomaton) : Prop where
  begins : ∃ t ts, A.fromTo 0 = t :: ts ∧ (G.typeRange t.typeId = [] → sources G ts = [])
  covers : ∀ n m, Answer G A n m → n ∈ sources G (A.fromTo 0)

theorem nodup_freshStarts (visited ns : List Nat) : (freshStarts visited ns).Nodup := by
  induction ns generalizing visited with
  | nil => exact List.nodup_nil
  | cons n ns ih =>
    rw [freshStarts]
    split_ifs with h
    · exact ih visited
    · refine List.nodup_cons.mpr ⟨fun hn => ?_, ih _⟩
      exact (mem_freshStarts.mp hn).2 List.mem_cons_self

theorem ends_rowFor (hne : startVar ≠ endVar) (r : SearchState) :
    ends startVar endVar (rowFor b startVar endVar n r) = (n, r.nodeId) := by
  simp [ends, rowFor, hne]

theorem mem_ends_rowsFrom (hne : startVar ≠ endVar) {m : Nat} :
    (n, m) ∈ (rowsFrom b startVar endVar results visited ns).map (ends startVar endVar) ↔
      n ∈ freshStarts visited ns ∧ m ∈ (results n).map SearchState.nodeId := by
  simp only [rowsFrom, List.map_flatMap, List.mem_flatMap, List.map_map, List.mem_map,
    Function.comp_apply, ends_rowFor hne, Prod.mk.injEq]
  constructor
  · intro ⟨k, hk, r, hr, hkn, hm⟩
    subst hkn
    exact ⟨hk, r, hr, hm⟩
  · intro ⟨hn, r, hr, hm⟩
    exact ⟨n, hn, r, hr, rfl, hm⟩

theorem nodup_ends_rowsFrom (hne : startVar ≠ endVar)
    (hresults : ∀ n, ((results n).map SearchState.nodeId).Nodup) :
    ((rowsFrom b startVar endVar results visited ns).map (ends startVar endVar)).Nodup := by
  have hmap : ∀ n, ((results n).map (rowFor b startVar endVar n)).map (ends startVar endVar) =
      ((results n).map SearchState.nodeId).map (Prod.mk n) := by
    intro n
    rw [List.map_map, List.map_map]
    apply List.map_congr_left
    exact fun r _ => ends_rowFor hne r
  rw [rowsFrom, List.map_flatMap, List.nodup_flatMap]
  refine ⟨fun n _ => ?_, ?_⟩
  · rw [hmap]
    exact (hresults n).map (Prod.mk_right_injective n)
  · refine (nodup_freshStarts visited ns).imp fun {n k} hnk => ?_
    intro p hp hp'
    dsimp only at hp hp'
    rw [hmap] at hp hp'
    obtain ⟨m, -, rfl⟩ := List.mem_map.mp hp
    obtain ⟨m', -, heq⟩ := List.mem_map.mp hp'
    exact hnk (Prod.mk.inj heq).1.symm

/-- The operator returns the pairs exactly when it finds their starts. -/
theorem returnsPairs_iff (G : QuadModel) (A : RPQAutomaton) (startVar endVar fuel : Nat) (b : Binding)
    (hA : A.InRange) (hstart : A.startIsFinal = false) (hfinal : A.finalState ≠ 0)
    (hne : startVar ≠ endVar) (hfuel : searchFuel G A + roundFuel G A ≤ fuel) :
    ReturnsPairs G A startVar endVar fuel b ↔ FindsStarts G A := by
  have halone : A.FinalStateAlone := by
    refine ⟨fun h => absurd h hfinal, fun h => ?_⟩
    rw [hstart] at h
    exact absurd h Bool.false_ne_true
  have hanswers : ∀ n, ∃ results, Yields (BFSIterEnum.next G A fuel) (.start n) results ∧
      Answers G A n results := fun n =>
    BFSIterEnum.yields_answers G A n fuel hA halone (by omega)
  choose results hyields hall using hanswers
  constructor
  · intro ⟨rows, hrows, _, hpairs⟩
    obtain ⟨t, ts, hrow, hlater⟩ := begins_of_yields hrows (by omega)
    refine ⟨⟨t, ts, hrow, hlater⟩, fun n m hanswer => ?_⟩
    have hfrom : Yields (next G A startVar endVar fuel) (start G A startVar b)
        ((rowsFrom b startVar endVar results [] (sources G (A.fromTo 0))).map some) :=
      yields_rowsFrom hyields hrow hlater (by omega)
    have hsame := List.map_injective_iff.mpr (Option.some_injective _) (hrows.unique hfrom)
    have hmem := (hpairs n m).mpr hanswer
    rw [hsame, mem_ends_rowsFrom hne] at hmem
    exact (mem_freshStarts.mp hmem.1).1
  · intro ⟨⟨t, ts, hrow, hlater⟩, hcovers⟩
    refine ⟨_, yields_rowsFrom hyields hrow hlater (by omega),
      nodup_ends_rowsFrom hne fun n => (hall n).nodup, fun n m => ?_⟩
    rw [mem_ends_rowsFrom hne, mem_freshStarts, (hall n).mem_iff m]
    constructor
    · exact fun h => h.2
    · exact fun h => ⟨⟨hcovers n m h, List.not_mem_nil⟩, h⟩

end

def oneEdge (inverse : Bool) : RPQAutomaton where
  totalStates := 2
  finalState := 1
  rows := 2
  fromTo := fun i => if i = 0 then [⟨0, 1, "b", inverse, 1⟩] else []

theorem inRange_oneEdge (inverse : Bool) : (oneEdge inverse).InRange where
  start_lt := Nat.succ_pos 1
  toState_lt i t ht := by
    simp only [oneEdge] at ht ⊢
    split_ifs at ht
    · rw [List.mem_singleton.mp ht]
      exact Nat.lt_succ_self 1
    · exact absurd ht List.not_mem_nil

theorem returnsPairs_oneEdge :
    ReturnsPairs loopAndEdge (oneEdge false) 0 1 13 (fun _ => 0) ↔
      FindsStarts loopAndEdge (oneEdge false) :=
  returnsPairs_iff loopAndEdge (oneEdge false) 0 1 13 (fun _ => 0) (inRange_oneEdge false) rfl
    Nat.one_ne_zero (by decide) (by decide)

/-- For an edge that is walked backwards the operator starts from the wrong end. -/
theorem not_returnsPairs_oneEdge :
    ¬ ∀ fuel, searchFuel loopAndEdge (oneEdge true) + roundFuel loopAndEdge (oneEdge true) ≤ fuel →
      ReturnsPairs loopAndEdge (oneEdge true) 0 1 fuel fun _ => 0 := by
  intro h
  obtain ⟨rows, hrows, -, hpairs⟩ := h 13 (by decide)
  have hanswer : Answer loopAndEdge (oneEdge true) 1 0 :=
    ⟨by decide, [(1, true)], .inr ⟨by simp, .single ⟨_, List.mem_singleton_self _, rfl, rfl⟩⟩,
      .single ⟨1, by decide⟩⟩
  have hnone : (rows.map some)[0]? = none := by
    rw [← hrows 0]
    decide
  cases rows with
  | nil => exact absurd ((hpairs 1 0).mpr hanswer) (by simp)
  | cons row rows => simp at hnone

end UnfixedComposite

end Paths
end MillenniumDB
