import MillenniumDB.BfsIterEnum

/-!
# `BFSSimpleEnum`, and the agreement of the three searches

`BFSSimpleEnum` expands a state completely before it looks whether the state is an answer.
It and `BFSIterEnum2` differ from `BFSIterEnum` in one point only: they do not mark the final
state at the start node when the start state is final.
-/

namespace MillenniumDB
namespace Paths

structure SimpleEnum where
  isFirst : Bool
  visited : List SearchState
  openStates : List SearchState

/-- `begin`, from the start node. -/
def SimpleEnum.start (s : Nat) : SimpleEnum where
  isFirst := true
  visited := [.root 0 s]
  openStates := [.root 0 s]

/-- One node of an iterator: the state is added to both sets unless it is visited.  Its
previous state is the entry of `visited` for the current one. -/
def visitChild (current : SearchState) (t : Transition)
    (sets : List SearchState × List SearchState) (m : Nat) : List SearchState × List SearchState :=
  let previous := (findState sets.1 current.key).getD current
  let next := SearchState.step previous t.inverse t.typeId t.toState m
  if (findState sets.1 next.key).isSome then sets else (sets.1 ++ [next], sets.2 ++ [next])

def expandState (P : PathIndexProvider) (A : RPQAutomaton) (current : SearchState)
    (sets : List SearchState × List SearchState) : List SearchState × List SearchState :=
  (A.fromTo current.automatonState).foldl
    (fun sets t => (P.getIterator t.typeId t.inverse current.nodeId).foldl
      (visitChild current t) sets) sets

def BFSSimpleEnum.next (G : QuadModel) (A : RPQAutomaton) :
    Nat → SimpleEnum → Option SearchState × SimpleEnum
  | 0, st => (none, st)
  | fuel + 1, st =>
    match st.openStates with
    | [] => (none, st)
    | current :: _ =>
      let sets := expandState G.provider A current (st.visited, st.openStates)
      let popped := { st with visited := sets.1, openStates := sets.2.tail }
      let reported := (findState sets.1 current.key).getD current
      if st.isFirst then
        let popped := { popped with isFirst := false }
        if ¬ G.provider.nodeExists current.nodeId then (none, popped)
        else if current.automatonState = 0 ∧ A.startIsFinal then (some reported, popped)
        else BFSSimpleEnum.next G A fuel popped
      else if current.automatonState = A.finalState then (some reported, popped)
      else BFSSimpleEnum.next G A fuel popped

section

variable {G : QuadModel} {P : PathIndexProvider} {A : RPQAutomaton}
  {visited queue rest out : List SearchState} {current s : SearchState} {st : SimpleEnum}
  {sets : List SearchState × List SearchState} {xs : List (EdgeLabel × Nat × Nat)}

def visitStep (current : SearchState) (sets : List SearchState × List SearchState)
    (x : EdgeLabel × Nat × Nat) : List SearchState × List SearchState :=
  let next := ((findState sets.1 current.key).getD current).extend x
  if (findState sets.1 next.key).isSome then sets else (sets.1 ++ [next], sets.2 ++ [next])

theorem expandState_eq (P : PathIndexProvider) (A : RPQAutomaton) (current : SearchState)
    (sets : List SearchState × List SearchState) :
    expandState P A current sets = (productSteps P A current.key).foldl (visitStep current) sets := by
  rw [productSteps, List.foldl_flatMap]
  simp only [List.foldl_map]
  rfl

theorem findState_concat_of_some (h : findState visited s.key = some s) (s' : SearchState) :
    findState (visited ++ [s']) s.key = some s := by
  unfold findState at h ⊢
  rw [List.find?_append, h]
  rfl

theorem findState_concat_of_none (h : findState visited s.key = none) :
    findState (visited ++ [s]) s.key = some s := by
  unfold findState at h ⊢
  rw [List.find?_append, h]
  simp

/-- Every queued state is the entry of `visited` for its key. -/
def QueuedVisited (sets : List SearchState × List SearchState) : Prop :=
  ∀ s ∈ sets.2, findState sets.1 s.key = some s

theorem foldl_visitStep (hqueued : QueuedVisited (visited, current :: rest))
    (h : ProductSearch P A (keys visited) current xs rest out) :
    ∃ visited' news out', xs.foldl (visitStep current) (visited, current :: rest) =
        (visited', current :: (rest ++ news)) ∧ out = news ++ out' ∧
      QueuedVisited (visited', current :: (rest ++ news)) ∧
      ProductSearch P A (keys visited') current [] (rest ++ news) out' := by
  induction xs generalizing visited rest out with
  | nil => exact ⟨visited, [], out, by simp, rfl, by simpa using hqueued, by simpa using h⟩
  | cons x xs ih =>
    have hcurrent : findState visited current.key = some current :=
      hqueued current List.mem_cons_self
    rw [List.foldl_cons]
    have hstep : visitStep current (visited, current :: rest) x =
        if (findState visited x.2).isSome then (visited, current :: rest)
        else (visited ++ [current.extend x], current :: rest ++ [current.extend x]) := by
      simp only [visitStep, hcurrent, Option.getD_some, SearchState.key_extend]
    rw [hstep]
    split_ifs with hfound
    · exact ih hqueued ((Search.skip_iff (isSome_findState.mp hfound)).mp h)
    · obtain ⟨out', rfl, hsearch⟩ := h.take_inv (mt isSome_findState.mpr hfound)
      have hnone : findState visited (current.extend x).key = none := by simpa using hfound
      have hqueued' : QueuedVisited
          (visited ++ [current.extend x], current :: (rest ++ [current.extend x])) := by
        intro s hs
        rw [← List.cons_append, List.mem_append, List.mem_singleton] at hs
        rcases hs with hs | rfl
        · exact findState_concat_of_some (hqueued s hs) _
        · exact findState_concat_of_none hnone
      have hsearch' : ProductSearch P A (keys (visited ++ [current.extend x])) current xs
          (rest ++ [current.extend x]) out' := by
        rw [keys_concat]
        exact hsearch
      obtain ⟨visited', news, out'', hfold, rfl, hqueued'', hrest⟩ := ih hqueued' hsearch'
      refine ⟨visited', current.extend x :: news, out'', ?_, rfl, ?_, ?_⟩
      · simpa using hfold
      · simpa using hqueued''
      · simpa using hrest

/-- What the search is going to pop, from the head of the queue on. -/
def SimpleEnum.Ahead (P : PathIndexProvider) (A : RPQAutomaton) (st : SimpleEnum)
    (out : List SearchState) : Prop :=
  QueuedVisited (st.visited, st.openStates) ∧
    match st.openStates with
    | [] => out = []
    | current :: rest => ProductSearch P A (keys st.visited) current (productSteps P A current.key) rest out

/-- What the search is going to answer after its first call, with fuel for every pop. -/
def SimpleEnum.Returns (P : PathIndexProvider) (A : RPQAutomaton) (fuel : Nat) (st : SimpleEnum)
    (answers : List SearchState) : Prop :=
  st.isFirst = false ∧ ∃ out, st.Ahead P A out ∧ (st.openStates ++ out).length ≤ fuel ∧
    (st.openStates ++ out).filter (·.automatonState = A.finalState) = answers

theorem SimpleEnum.ahead_expand (hopen : st.openStates = current :: rest) (hahead : st.Ahead P A out) :
    ∃ visited' news out', expandState P A current (st.visited, st.openStates) =
        (visited', current :: (rest ++ news)) ∧ out = news ++ out' ∧
      findState visited' current.key = some current ∧
      SimpleEnum.Ahead P A ⟨false, visited', rest ++ news⟩ out' := by
  obtain ⟨hqueued, hsearch⟩ := hahead
  rw [hopen] at hqueued hsearch ⊢
  obtain ⟨visited', news, out', hfold, rfl, hqueued', hrest⟩ := foldl_visitStep hqueued hsearch
  refine ⟨visited', news, out', by rw [expandState_eq, hfold], rfl,
    hqueued' current List.mem_cons_self, fun s hs => hqueued' s (List.mem_cons_of_mem _ hs), ?_⟩
  dsimp only
  cases hrest' : rest ++ news with
  | nil => exact (hrest' ▸ hrest).stop_inv
  | cons current' rest' => exact (hrest' ▸ hrest).pop_inv

theorem BFSSimpleEnum.next_spec {fuel limit : Nat} {answers : List SearchState}
    (hfirst : st.isFirst = false) (hahead : st.Ahead G.provider A out)
    (hfuel : (st.openStates ++ out).length ≤ fuel) (hlimit : fuel ≤ limit)
    (hanswers : (st.openStates ++ out).filter (·.automatonState = A.finalState) = answers) :
    (BFSSimpleEnum.next G A fuel st).1 = answers.head? ∧
      (BFSSimpleEnum.next G A fuel st).2.Returns G.provider A limit answers.tail := by
  -- every round pops one of the states that are queued or still to be found
  induction fuel generalizing st out with
  | zero =>
    have hnil : st.openStates ++ out = [] := List.eq_nil_of_length_eq_zero (by omega)
    rw [hnil] at hanswers
    subst hanswers
    have hfilter : (st.openStates ++ out).filter (·.automatonState = A.finalState) = [] := by
      rw [hnil, List.filter_nil]
    exact ⟨rfl, hfirst, out, hahead, hfuel.trans hlimit, hfilter⟩
  | succ fuel ih =>
    rw [BFSSimpleEnum.next]
    cases hopen : st.openStates with
    | nil =>
      have hout : out = [] := by
        have h := hahead.2
        rwa [hopen] at h
      rw [hopen, hout] at hanswers
      subst hanswers
      exact ⟨rfl, hfirst, out, hahead, by simp [hopen, hout], by simp [hopen, hout]⟩
    | cons current rest =>
      obtain ⟨visited', news, out', hexpand, rfl, hcurrent, hahead'⟩ :=
        SimpleEnum.ahead_expand hopen hahead
      rw [hopen] at hexpand hfuel hanswers
      have hqueue : (rest ++ news) ++ out' = rest ++ (news ++ out') := List.append_assoc _ _ _
      have hfuel' : ((rest ++ news) ++ out').length ≤ fuel := by
        rw [hqueue]
        simpa using hfuel
      simp only [hexpand, hfirst, hcurrent, Option.getD_some, List.tail_cons, Bool.false_eq_true,
        if_false]
      rw [List.cons_append] at hanswers
      by_cases hfinal : current.automatonState = A.finalState
      · rw [List.filter_cons_of_pos (by simpa using hfinal)] at hanswers
        subst hanswers
        simp only [hfinal, if_true]
        exact ⟨rfl, rfl, out', hahead', by dsimp only; omega, by simp⟩
      · rw [List.filter_cons_of_neg (by simpa using hfinal), ← hqueue] at hanswers
        simp only [hfinal, if_false]
        exact ih rfl hahead' hfuel' (by omega) hanswers

theorem SimpleEnum.Returns.yields {fuel : Nat} {answers : List SearchState}
    (h : st.Returns G.provider A fuel answers) : Yields (BFSSimpleEnum.next G A fuel) st answers := by
  have hspec : ∀ st answers, SimpleEnum.Returns G.provider A fuel st answers →
      (BFSSimpleEnum.next G A fuel st).1 = answers.head? ∧
        (BFSSimpleEnum.next G A fuel st).2.Returns G.provider A fuel answers.tail := by
    intro st answers h
    obtain ⟨hfirst, out, hahead, hfuel, hanswers⟩ := h
    exact BFSSimpleEnum.next_spec hfirst hahead hfuel le_rfl hanswers
  exact .of_relation (SimpleEnum.Returns G.provider A fuel) (fun st h => hspec st [] h)
    (fun st r out h => hspec st (r :: out) h) h

variable {s fuel : Nat}

/-- `BFSSimpleEnum` returns the empty walk and then what its search finds in the final state. -/
theorem BFSSimpleEnum.yields_next (hs : s ∈ G.nodes)
    (h : ProductSearch G.provider A {(0, s)} (.root 0 s) (productSteps G.provider A (0, s)) [] out)
    (hfuel : out.length + 1 ≤ fuel) :
    Yields (BFSSimpleEnum.next G A fuel) (.start s)
      (emptyWalk A 0 s ++ out.filter (·.automatonState = A.finalState)) := by
  have hexists : G.provider.nodeExists s = true := G.serves_provider.nodeExists_of_mem hs
  have hkeys : keys [SearchState.root 0 s] = {(0, s)} := by
    ext v
    simp [keysOf, SearchState.key, SearchState.automatonState, SearchState.nodeId, eq_comm]
  have hahead : (SimpleEnum.start s).Ahead G.provider A out := by
    refine ⟨fun s' hs' => ?_, ?_⟩
    · rw [SimpleEnum.start, List.mem_singleton] at hs'
      simp [SimpleEnum.start, findState, hs']
    · show ProductSearch G.provider A (keys [SearchState.root 0 s]) _ _ _ _
      rw [hkeys]
      exact h
  have hopen : (SimpleEnum.start s).openStates = [.root 0 s] := rfl
  obtain ⟨visited', news, out', hexpand, rfl, hcurrent, hahead'⟩ :=
    SimpleEnum.ahead_expand hopen hahead
  rw [List.nil_append] at hexpand hahead'
  obtain ⟨fuel, rfl⟩ : ∃ n, fuel = n + 1 := ⟨fuel - 1, by omega⟩
  have hfirst : BFSSimpleEnum.next G A (fuel + 1) (.start s) =
      if A.startIsFinal then (some (.root 0 s), ⟨false, visited', news⟩)
      else BFSSimpleEnum.next G A fuel ⟨false, visited', news⟩ := by
    have hvisited : findState visited' (0, s) = some (.root 0 s) := hcurrent
    rw [BFSSimpleEnum.next, hopen]
    simp only [← hopen, hexpand]
    simp [SimpleEnum.start, hexists, SearchState.nodeId, SearchState.automatonState,
      SearchState.key, hvisited]
  have hlength : (news ++ out').length ≤ fuel := by omega
  by_cases hfinal : A.startIsFinal
  · rw [if_pos hfinal] at hfirst
    rw [emptyWalk, if_pos hfinal]
    refine .cons (by rw [hfirst]) ?_
    rw [hfirst]
    exact SimpleEnum.Returns.yields ⟨rfl, out', hahead', hlength.trans (Nat.le_succ fuel), rfl⟩
  · rw [if_neg hfinal] at hfirst
    rw [emptyWalk, if_neg hfinal, List.nil_append]
    obtain ⟨hhead, htail⟩ :=
      BFSSimpleEnum.next_spec rfl hahead' hlength (Nat.le_succ fuel) rfl
    rw [← hfirst] at hhead htail
    exact .of_head_tail hhead htail.yields

theorem productSteps_eq_nil (hP : P.Serves G) (hs : s ∉ G.nodes) (q : Nat) :
    productSteps P A (q, s) = [] := by
  rw [List.eq_nil_iff_forall_not_mem]
  intro x hx
  exact hs ((mem_productSteps hP).mp hx).2.mem_nodes.1

theorem BFSSimpleEnum.yields_nil (hs : s ∉ G.nodes) :
    Yields (BFSSimpleEnum.next G A fuel) (.start s) [] := by
  have hempty : SimpleEnum.Returns G.provider A fuel ⟨false, [.root 0 s], []⟩ [] :=
    ⟨rfl, [], ⟨by simp [QueuedVisited], rfl⟩, by simp, rfl⟩
  cases fuel with
  | zero => exact .nil_of_invariant (fun _ => True) (fun _ _ => ⟨rfl, trivial⟩) trivial
  | succ fuel =>
    have hexpand : expandState G.provider A (.root 0 s) ([.root 0 s], [.root 0 s]) =
        ([.root 0 s], [.root 0 s]) := by
      rw [expandState_eq]
      have hsteps : productSteps G.provider A (SearchState.root 0 s).key = [] :=
        productSteps_eq_nil G.serves_provider hs 0
      rw [hsteps, List.foldl_nil]
    have hfirst : BFSSimpleEnum.next G A (fuel + 1) (.start s) =
        (none, ⟨false, [.root 0 s], []⟩) := by
      have hexists : G.provider.nodeExists s = false := by simpa [QuadModel.provider] using hs
      rw [BFSSimpleEnum.next]
      simp [SimpleEnum.start, hexpand, hexists, SearchState.nodeId]
    refine .nil_of_none (by rw [hfirst]) ?_
    rw [hfirst]
    exact hempty.yields

/-- `BFSIterEnum2` returns the empty walk and then what its search finds in the final state. -/
theorem BFSIterEnum2.yields_next (hexists : P.nodeExists s)
    (h : ProductSearch P A {(0, s)} (.root 0 s) (productSteps P A (0, s)) [] out)
    (hfuel : 2 * out.length + 1 ≤ fuel) :
    Yields (BFSIterEnum2.next P A fuel) (.start s)
      (emptyWalk A 0 s ++ out.filter (·.automatonState = A.finalState)) := by
  have hloop : ∀ st : IterEnum, st.firstNext = false →
      BFSIterEnum2.next P A fuel st = iterLoop P A fuel st := by
    intro st hfirst
    simp [BFSIterEnum2.next, hfirst]
  have hkeys : keys [SearchState.root 0 s] = {(0, s)} := by
    ext v
    simp [keysOf, SearchState.key, SearchState.automatonState, SearchState.nodeId, eq_comm]
  have hreturns : IterEnum.Returns P A fuel { IterEnum.start s with firstNext := false }
      (out.filter (·.automatonState = A.finalState)) :=
    returns_start rfl rfl rfl (hkeys ▸ h) hfuel
  by_cases hfinal : A.startIsFinal
  · have hfirst : BFSIterEnum2.next P A fuel (.start s) =
        (some (.root 0 s), { IterEnum.start s with firstNext := false }) := by
      simp [BFSIterEnum2.next, IterEnum.start, hexists, hfinal, SearchState.nodeId]
    rw [emptyWalk, if_pos hfinal]
    refine .cons (by rw [hfirst]) ?_
    rw [hfirst]
    exact hreturns.yields hloop
  · have hfirst : BFSIterEnum2.next P A fuel (.start s) =
        BFSIterEnum2.next P A fuel { IterEnum.start s with firstNext := false } := by
      simp [BFSIterEnum2.next, IterEnum.start, hexists, hfinal, SearchState.nodeId]
    rw [emptyWalk, if_neg hfinal, List.nil_append]
    intro k
    rw [← hreturns.yields hloop k]
    cases k <;> simp only [nthNext, hfirst]

theorem BFSIterEnum2.yields_nil (hexists : ¬ P.nodeExists s) :
    Yields (BFSIterEnum2.next P A fuel) (.start s) [] := by
  have hloop : ∀ st : IterEnum, st.firstNext = false →
      BFSIterEnum2.next P A fuel st = iterLoop P A fuel st := by
    intro st hfirst
    simp [BFSIterEnum2.next, hfirst]
  have hfirst : BFSIterEnum2.next P A fuel (.start s) =
      (none, { IterEnum.start s with firstNext := false, openStates := [] }) := by
    simp [BFSIterEnum2.next, IterEnum.start, SearchState.nodeId, hexists]
  refine .nil_of_none (by rw [hfirst]) ?_
  rw [hfirst]
  exact (IterEnum.returns_nil_of_open rfl rfl).yields hloop

end

def SameAnswers (results results' : List SearchState) : Prop :=
  ∀ m d, (∃ r ∈ results, r.nodeId = m ∧ r.depth = d) ↔ ∃ r ∈ results', r.nodeId = m ∧ r.depth = d

/-- Three searches return the same answers, and none of them returns a node twice. -/
structure Agree (iter simple iter2 : List SearchState) : Prop where
  same_simple : SameAnswers iter simple
  same_iter2 : SameAnswers iter iter2
  nodup_iter : (iter.map SearchState.nodeId).Nodup
  nodup_simple : (simple.map SearchState.nodeId).Nodup
  nodup_iter2 : (iter2.map SearchState.nodeId).Nodup

def SearchesAgree (G : QuadModel) (P : PathIndexProvider) (A : RPQAutomaton) (s fuel : Nat) : Prop :=
  ∃ iter simple iter2, Yields (BFSIterEnum.next G A fuel) (.start s) iter ∧
    Yields (BFSSimpleEnum.next G A fuel) (.start s) simple ∧
    Yields (BFSIterEnum2.next P A fuel) (.start s) iter2 ∧ Agree iter simple iter2

/-- The start state is final beside the final state, and a non-empty accepted walk returns to
the start node. -/
def StartReached (G : QuadModel) (A : RPQAutomaton) (s : Nat) : Prop :=
  A.startIsFinal ∧ A.finalState ≠ 0 ∧ ∃ w ≠ [], Run A.IdStep 0 w A.finalState ∧ Run G.Step s w s

def IsDistance (G : QuadModel) (A : RPQAutomaton) (s : Nat) (v : Nat × Nat) (d : Nat) : Prop :=
  (∃ w, Run (ProductStep G A) (0, s) w v ∧ w.length = d) ∧
    ∀ w, Run (ProductStep G A) (0, s) w v → d ≤ w.length

section

variable {G : QuadModel} {P : PathIndexProvider} {A : RPQAutomaton} {s fuel q d : Nat}
  {blocked : Set (Nat × Nat)} {out : List SearchState} {v : Nat × Nat}

theorem exists_found_iff (hP : P.Serves G)
    (h : ProductSearch P A (insert (0, s) blocked) (.root 0 s) (productSteps P A (0, s)) [] out)
    (hclear : ∀ b ∈ blocked, ∀ w ≠ [], ¬ Run (ProductStep G A) (0, s) w b) :
    (∃ r ∈ out, r.key = v ∧ r.depth = d) ↔ v ≠ (0, s) ∧ IsDistance G A s v d := by
  have hfound : ∀ w, v ≠ (0, s) → Run (ProductStep G A) (0, s) w v →
      ∃ r ∈ out, r.key = v ∧ r.depth ≤ w.length := by
    intro w hv hrun
    refine exists_found hP h hv (hrun.avoiding fun u u' b _ hu hb _ hmem => ?_)
    exact hclear b hmem u hu hb
  obtain ⟨hnodup, hnew⟩ := h.nodup SearchState.key_extend_eq
  constructor
  · rintro ⟨r, hr, rfl, rfl⟩
    have hv : r.key ≠ (0, s) := fun heq => hnew r hr (.inl heq)
    refine ⟨hv, ⟨r.word, (found_spec hP h r hr).2.2.1, rfl⟩, fun w hw => ?_⟩
    obtain ⟨r', hr', hkey, hle⟩ := hfound w hv hw
    rwa [List.inj_on_of_nodup_map hnodup hr' hr hkey] at hle
  · rintro ⟨hv, ⟨w, hw, rfl⟩, hmin⟩
    obtain ⟨r, hr, rfl, hle⟩ := hfound w hv hw
    exact ⟨r, hr, rfl, hle.antisymm (hmin r.word (found_spec hP h r hr).2.2.1)⟩

/-- The answers of a search that marks no vertex it could reach, and that none of them is a
second time the start node. -/
theorem answers_iff (hP : P.Serves G)
    (h : ProductSearch P A (insert (0, s) blocked) (.root 0 s) (productSteps P A (0, s)) [] out)
    (hclear : ∀ b ∈ blocked, ∀ w ≠ [], ¬ Run (ProductStep G A) (0, s) w b) (m : Nat) :
    (∃ r ∈ emptyWalk A q s ++ out.filter (·.automatonState = A.finalState),
        r.nodeId = m ∧ r.depth = d) ↔
      (A.startIsFinal ∧ s = m ∧ 0 = d) ∨
        ((A.finalState, m) ≠ (0, s) ∧ IsDistance G A s (A.finalState, m) d) := by
  rw [← exists_found_iff hP h hclear]
  constructor
  · rintro ⟨r, hr, hm, hd⟩
    rcases List.mem_append.mp hr with hr | hr
    · obtain ⟨hstart, rfl⟩ := mem_emptyWalk.mp hr
      exact .inl ⟨hstart, hm, hd⟩
    · simp only [List.mem_filter, decide_eq_true_eq] at hr
      exact .inr ⟨r, hr.1, Prod.ext hr.2 hm, hd⟩
  · rintro (⟨hstart, hm, hd⟩ | ⟨r, hr, hkey, hd⟩)
    · exact ⟨.root q s, List.mem_append_left _ (mem_emptyWalk.mpr ⟨hstart, rfl⟩), hm, hd⟩
    · obtain ⟨hfinal, hm⟩ := Prod.mk.inj hkey
      exact ⟨r, List.mem_append_right _ (List.mem_filter.mpr ⟨hr, by simpa using hfinal⟩), hm, hd⟩

theorem answers_nodup (hP : P.Serves G) (hreached : ¬ StartReached G A s)
    (h : ProductSearch P A (insert (0, s) blocked) (.root 0 s) (productSteps P A (0, s)) [] out) :
    ((emptyWalk A q s ++ out.filter (·.automatonState = A.finalState)).map
      SearchState.nodeId).Nodup := by
  obtain ⟨hnodup, hnew⟩ := h.nodup SearchState.key_extend_eq
  refine emptyWalk_nodup (filter_final_nodup hnodup) fun r hr hfinal hstart hnode => ?_
  have hkey : r.key = (A.finalState, s) := Prod.ext hfinal hnode
  obtain ⟨-, -, hrun, hne, -⟩ := found_spec hP h r hr
  by_cases hzero : A.finalState = 0
  · exact hnew r hr (.inl (by rw [hkey, hzero]))
  · rw [hkey] at hrun
    exact hreached ⟨hstart, hzero, r.word, hne, run_productStep.mp hrun⟩

theorem not_nodup_of_reached (hP : P.Serves G) (hreached : StartReached G A s)
    (h : ProductSearch P A (insert (0, s) ∅) (.root 0 s) (productSteps P A (0, s)) [] out) :
    ¬ ((emptyWalk A q s ++ out.filter (·.automatonState = A.finalState)).map
      SearchState.nodeId).Nodup := by
  obtain ⟨hstart, hzero, w, _, hauto, hwalk⟩ := hreached
  have hne : (A.finalState, s) ≠ (0, s) := fun heq => hzero (Prod.mk.inj heq).1
  obtain ⟨r, hr, hkey, -⟩ := exists_found hP h hne
    ((run_productStep.mpr ⟨hauto, hwalk⟩).avoiding (by simp))
  obtain ⟨hfinal, hnode⟩ := Prod.mk.inj hkey
  rw [List.map_append, List.nodup_append]
  intro hnodup
  refine hnodup.2.2 s (List.mem_map.mpr ⟨_, mem_emptyWalk.mpr ⟨hstart, rfl⟩, rfl⟩) s ?_ rfl
  exact List.mem_map.mpr ⟨r, List.mem_filter.mpr ⟨hr, by simpa using hfinal⟩, hnode⟩

theorem searchesAgree_of_mem (hs : s ∈ G.nodes) (hP : P.Serves G) (hA : A.InRange)
    (hfuel : searchFuel G A ≤ fuel) (hreached : ¬ StartReached G A s) :
    SearchesAgree G P A s fuel := by
  obtain ⟨out₁, h₁, hlength₁⟩ := exists_search G.serves_provider hA s (insert (0, s) (marked A s))
  obtain ⟨out₂, h₂, hlength₂⟩ := exists_search G.serves_provider hA s {(0, s)}
  obtain ⟨out₃, h₃, hlength₃⟩ := exists_search hP hA s {(0, s)}
  unfold searchFuel at hfuel
  have hnone : insert (0, s) ∅ = ({(0, s)} : Set (Nat × Nat)) := LawfulSingleton.insert_empty_eq _
  rw [← hnone] at h₂ h₃
  have hmarked : ∀ b ∈ marked A s, ∀ w ≠ [], ¬ Run (ProductStep G A) (0, s) w b := by
    rintro b ⟨hstart, hzero, rfl⟩ w hw hrun
    exact hreached ⟨hstart, hzero, w, hw, run_productStep.mp hrun⟩
  refine ⟨_, _, _, BFSIterEnum.yields_next hs h₁ (by omega),
    BFSSimpleEnum.yields_next hs (hnone ▸ h₂) (by omega),
    BFSIterEnum2.yields_next (hP.nodeExists_of_mem hs) (hnone ▸ h₃) (by omega),
    fun m d => ?_, fun m d => ?_, answers_nodup G.serves_provider hreached h₁,
    answers_nodup G.serves_provider hreached h₂, answers_nodup hP hreached h₃⟩
  · rw [answers_iff G.serves_provider h₁ hmarked, answers_iff G.serves_provider h₂ (by simp)]
  · rw [answers_iff G.serves_provider h₁ hmarked, answers_iff hP h₃ (by simp)]

/-- Searches from a node that does not exist agree unless the provider takes it for a node
and the start state is final. -/
theorem searchesAgree_of_not_mem (hs : s ∉ G.nodes) (hP : P.Serves G)
    (hexists : A.startIsFinal → ¬ P.nodeExists s) (hfuel : searchFuel G A ≤ fuel) :
    SearchesAgree G P A s fuel := by
  refine ⟨[], [], [], BFSIterEnum.yields_nil hs, BFSSimpleEnum.yields_nil hs, ?_,
    fun m d => Iff.rfl, fun m d => Iff.rfl, by simp, by simp, by simp⟩
  by_cases hnode : P.nodeExists s
  · have hstart : ¬ A.startIsFinal := fun h => hexists h hnode
    have h : ProductSearch P A {(0, s)} (.root 0 s) (productSteps P A (0, s)) [] [] := by
      rw [productSteps_eq_nil hP hs]
      exact .stop
    have hone : 2 * ([] : List SearchState).length + 1 ≤ fuel := by
      unfold searchFuel at hfuel
      simp
      omega
    have hyields := BFSIterEnum2.yields_next hnode h hone
    rwa [emptyWalk, if_neg hstart, List.filter_nil, List.append_nil] at hyields
  · exact BFSIterEnum2.yields_nil hnode

theorem not_searchesAgree_of_reached (hA : A.InRange)
    (hfuel : searchFuel G A ≤ fuel) (hreached : StartReached G A s) :
    ¬ SearchesAgree G P A s fuel := by
  rintro ⟨iter, simple, iter2, -, hsimple, -, hagree⟩
  have hs : s ∈ G.nodes := by
    obtain ⟨-, -, w, hw, -, hwalk⟩ := hreached
    cases w with
    | nil => exact absurd rfl hw
    | cons l w =>
      obtain ⟨m, hm, -⟩ := Run.cons_iff.mp hwalk
      exact hm.mem_nodes.1
  obtain ⟨out, h, hlength⟩ := exists_search G.serves_provider hA s {(0, s)}
  unfold searchFuel at hfuel
  have hnone : insert (0, s) ∅ = ({(0, s)} : Set (Nat × Nat)) := LawfulSingleton.insert_empty_eq _
  have hbound : out.length + 1 ≤ fuel := by omega
  have hyields := BFSSimpleEnum.yields_next hs h hbound
  obtain rfl := hsimple.unique hyields
  rw [← hnone] at h
  exact not_nodup_of_reached G.serves_provider hreached h hagree.nodup_simple

/-- A start node that only the provider takes for a node is returned by one search alone. -/
theorem not_searchesAgree_of_provider (hs : s ∉ G.nodes) (hP : P.Serves G) (hA : A.InRange)
    (hfuel : searchFuel G A ≤ fuel) (hstart : A.startIsFinal) (hnode : P.nodeExists s) :
    ¬ SearchesAgree G P A s fuel := by
  rintro ⟨iter, simple, iter2, hiter, -, hiter2, hagree⟩
  obtain rfl := hiter.unique (BFSIterEnum.yields_nil hs)
  obtain ⟨out, h, hlength⟩ := exists_search hP hA s {(0, s)}
  unfold searchFuel at hfuel
  obtain rfl := hiter2.unique (BFSIterEnum2.yields_next hnode h (by omega))
  have hroot : SearchState.root 0 s ∈ emptyWalk A 0 s := mem_emptyWalk.mpr ⟨hstart, rfl⟩
  obtain ⟨r, hr, -⟩ := (hagree.same_iter2 s 0).mpr ⟨_, List.mem_append_left _ hroot, rfl, rfl⟩
  exact absurd hr List.not_mem_nil

/-- The three searches agree exactly when the start node is not a second answer, and the
provider does not take a missing start node for an answer. -/
theorem searchesAgree_iff (G : QuadModel) (P : PathIndexProvider) (A : RPQAutomaton)
    (s fuel : Nat) (hP : P.Serves G) (hA : A.InRange) (hfuel : searchFuel G A ≤ fuel) :
    SearchesAgree G P A s fuel ↔
      ¬ StartReached G A s ∧ (A.startIsFinal → P.nodeExists s → s ∈ G.nodes) := by
  constructor
  · intro h
    refine ⟨fun hreached => not_searchesAgree_of_reached hA hfuel hreached h, ?_⟩
    intro hstart hnode
    by_contra hs
    exact not_searchesAgree_of_provider hs hP hA hfuel hstart hnode h
  · rintro ⟨hreached, hnode⟩
    by_cases hs : s ∈ G.nodes
    · exact searchesAgree_of_mem hs hP hA hfuel hreached
    · exact searchesAgree_of_not_mem hs hP (fun hstart h => hs (hnode hstart h)) hfuel

/-- The loop of `loopAndEdge` and its edge in the two RDF indexes. -/
def loopAndEdgeProvider : PathIndexProvider :=
  rdfModelIndexProvider [(0, 0, 0), (1, 0, 1)] [(0, 0, 0), (1, 1, 0)]

theorem serves_loopAndEdgeProvider : loopAndEdgeProvider.Serves loopAndEdge where
  mem_getIterator {l n m} := by
    obtain ⟨typeId, inverse⟩ := l
    cases inverse <;>
      simp only [loopAndEdgeProvider, rdfModelIndexProvider, QuadModel.Step, loopAndEdge] <;>
      grind
  nodeExists_of_mem _ := rfl

theorem searchesAgree_loopAndEdge : SearchesAgree loopAndEdge loopAndEdgeProvider finalAlone 1 9 ↔
    ¬ StartReached loopAndEdge finalAlone 1 ∧
      (finalAlone.startIsFinal → loopAndEdgeProvider.nodeExists 1 → 1 ∈ loopAndEdge.nodes) :=
  searchesAgree_iff loopAndEdge loopAndEdgeProvider finalAlone 1 9 serves_loopAndEdgeProvider
    inRange_finalAlone (by decide)

/-- At node 0 the automaton of an optional type returns to the start node by the loop. -/
theorem not_searchesAgree : ¬ SearchesAgree loopAndEdge loopAndEdgeProvider finalAlone 0 9 :=
  not_searchesAgree_of_reached inRange_finalAlone (by decide)
    ⟨rfl, by decide, [(0, false)], by simp, .single ⟨_, List.mem_cons_self, rfl, rfl⟩,
      .single ⟨0, by decide⟩⟩

end

end Paths
end MillenniumDB
