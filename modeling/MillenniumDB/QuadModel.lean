import MillenniumDB.Lib.BreadthFirst
import MillenniumDB.Lib.Iterators
import MillenniumDB.PathAutomata

/-!
# Graphs and the searches over them

The indexes of the quad model that the path searches read, walks in the graph, and
`SearchState`, the entries of every search for any shortest path.  A search runs in the
product of the graph and an automaton: a vertex is a state with a node.
-/

namespace MillenniumDB

abbrev Record4 := Nat × Nat × Nat × Nat

/-- `QuadModel`: the indexes as the lists of their records. -/
structure QuadModel where
  nodes : List Nat
  typeFromToEdge : List Record4
  toTypeFromEdge : List Record4
  same_edges : ∀ type source target edge, (target, type, source, edge) ∈ toTypeFromEdge ↔
    (type, source, target, edge) ∈ typeFromToEdge
  endpoints : ∀ type source target edge, (type, source, target, edge) ∈ typeFromToEdge →
    source ∈ nodes ∧ target ∈ nodes
  nodup_forward : typeFromToEdge.Nodup
  nodup_backward : toTypeFromEdge.Nodup

/-- The records between two that fix the first two columns and leave the others free. -/
def prefixRange (index : List Record4) (first second : Nat) : List Record4 :=
  index.filter fun r => r.1 = first ∧ r.2.1 = second

abbrev EdgeLabel := Nat × Bool

namespace QuadModel

def Step (G : QuadModel) (n : Nat) (l : EdgeLabel) (m : Nat) : Prop :=
  ∃ edge, (if l.2 then (l.1, m, n, edge) else (l.1, n, m, edge)) ∈ G.typeFromToEdge

/-- `set_iter`: the third columns of the records that it scans. -/
def setIter (G : QuadModel) (typeId : Nat) (inverse : Bool) (n : Nat) : List Nat :=
  if inverse then (prefixRange G.toTypeFromEdge n typeId).map (·.2.2.1)
  else (prefixRange G.typeFromToEdge typeId n).map (·.2.2.1)

variable {G : QuadModel} {n m : Nat} {l : EdgeLabel} {w : List EdgeLabel}

theorem mem_setIter : m ∈ G.setIter l.1 l.2 n ↔ G.Step n l m := by
  obtain ⟨typeId, inverse⟩ := l
  have hforward : m ∈ (prefixRange G.typeFromToEdge typeId n).map (·.2.2.1) ↔
      ∃ edge, (typeId, n, m, edge) ∈ G.typeFromToEdge := by
    simp only [prefixRange, List.mem_map, List.mem_filter, decide_eq_true_eq]
    constructor
    · rintro ⟨⟨_, _, _, edge⟩, ⟨hr, rfl, rfl⟩, rfl⟩
      exact ⟨edge, hr⟩
    · rintro ⟨edge, hr⟩
      exact ⟨_, ⟨hr, rfl, rfl⟩, rfl⟩
  have hbackward : m ∈ (prefixRange G.toTypeFromEdge n typeId).map (·.2.2.1) ↔
      ∃ edge, (typeId, m, n, edge) ∈ G.typeFromToEdge := by
    simp only [prefixRange, List.mem_map, List.mem_filter, decide_eq_true_eq]
    constructor
    · rintro ⟨⟨_, _, _, edge⟩, ⟨hr, rfl, rfl⟩, rfl⟩
      exact ⟨edge, (G.same_edges _ _ _ _).mp hr⟩
    · rintro ⟨edge, hr⟩
      exact ⟨_, ⟨(G.same_edges _ _ _ _).mpr hr, rfl, rfl⟩, rfl⟩
  cases inverse
  · exact hforward
  · exact hbackward

theorem Step.mem_nodes (h : G.Step n l m) : n ∈ G.nodes ∧ m ∈ G.nodes := by
  obtain ⟨edge, he⟩ := h
  split_ifs at he
  · exact (G.endpoints _ _ _ _ he).symm
  · exact G.endpoints _ _ _ _ he

end QuadModel

/-- `PathIndexProvider`: the iterators as the lists that they run through. -/
structure PathIndexProvider where
  nodeExists : Nat → Bool
  getIterator : Nat → Bool → Nat → List Nat

def QuadModel.provider (G : QuadModel) : PathIndexProvider where
  nodeExists n := n ∈ G.nodes
  getIterator := G.setIter

/-- `RdfModelIndexProvider`, over the indexes `pso` and `pos`. -/
def rdfModelIndexProvider (pso pos : List (Nat × Nat × Nat)) : PathIndexProvider where
  nodeExists _ := true
  getIterator typeId inverse n :=
    ((if inverse then pos else pso).filter fun r => r.1 = typeId ∧ r.2.1 = n).map (·.2.2)

/-- The provider lists the edges of the graph and knows its nodes. -/
structure PathIndexProvider.Serves (P : PathIndexProvider) (G : QuadModel) : Prop where
  mem_getIterator : ∀ {l : EdgeLabel} {n m}, m ∈ P.getIterator l.1 l.2 n ↔ G.Step n l m
  nodeExists_of_mem : ∀ {n}, n ∈ G.nodes → P.nodeExists n

theorem QuadModel.serves_provider (G : QuadModel) : G.provider.Serves G where
  mem_getIterator := G.mem_setIter
  nodeExists_of_mem h := by simpa [provider] using h

namespace RPQAutomaton

def IdStep (A : RPQAutomaton) (i : Nat) (l : EdgeLabel) (j : Nat) : Prop :=
  ∃ t ∈ A.fromTo i, t.toState = j ∧ (t.typeId, t.inverse) = l

def acceptsIds (A : RPQAutomaton) (w : List EdgeLabel) : Prop :=
  (w = [] ∧ A.startIsFinal) ∨ (w ≠ [] ∧ Run A.IdStep 0 w A.finalState)

structure InRange (A : RPQAutomaton) : Prop where
  start_lt : 0 < A.rows
  toState_lt : ∀ i, ∀ t ∈ A.fromTo i, t.toState < A.rows

theorem FinalStateAlone.fromTo_final {A : RPQAutomaton} (hA : A.FinalStateAlone)
    (hs : A.startIsFinal) (hf : A.finalState ≠ 0) : A.fromTo A.finalState = [] := by
  rw [List.eq_nil_iff_forall_not_mem]
  intro t ht
  exact hA.final_no_step hs hf _ _ ⟨t, ht, rfl, rfl⟩

end RPQAutomaton

namespace Paths

/-- `AnyShortest::SearchState`, with its chain of previous states. -/
inductive SearchState
  | root (automatonState nodeId : Nat)
  | step (previous : SearchState) (inverseDirection : Bool) (typeId automatonState nodeId : Nat)
  deriving DecidableEq, Repr

namespace SearchState

def automatonState : SearchState → Nat
  | root q _ => q
  | step _ _ _ q _ => q

def nodeId : SearchState → Nat
  | root _ n => n
  | step _ _ _ _ n => n

/-- What `operator==` compares. -/
def key (s : SearchState) : Nat × Nat := (s.automatonState, s.nodeId)

def source : SearchState → Nat
  | root _ n => n
  | step p _ _ _ _ => p.source

def word : SearchState → List EdgeLabel
  | root _ _ => []
  | step p inverse typeId _ _ => p.word ++ [(typeId, inverse)]

def depth (s : SearchState) : Nat := s.word.length

def Follows (edge : Nat → EdgeLabel → Nat → Prop) : SearchState → Prop
  | root _ _ => True
  | step p inverse typeId _ n => p.Follows edge ∧ edge p.nodeId (typeId, inverse) n

def extend (s : SearchState) (x : EdgeLabel × Nat × Nat) : SearchState :=
  .step s x.1.2 x.1.1 x.2.1 x.2.2

variable {s : SearchState} {x : EdgeLabel × Nat × Nat} {edge : Nat → EdgeLabel → Nat → Prop}

@[simp] theorem key_extend : (s.extend x).key = x.2 := rfl

theorem key_extend_eq (s : SearchState) (x : EdgeLabel × Nat × Nat) : (s.extend x).key = x.2 := rfl

@[simp] theorem nodeId_extend : (s.extend x).nodeId = x.2.2 := rfl

@[simp] theorem source_extend : (s.extend x).source = s.source := rfl

@[simp] theorem word_extend : (s.extend x).word = s.word ++ [x.1] := rfl

@[simp] theorem follows_extend :
    (s.extend x).Follows edge ↔ s.Follows edge ∧ edge s.nodeId x.1 x.2.2 := Iff.rfl

theorem depth_extend (s : SearchState) (x : EdgeLabel × Nat × Nat) :
    (s.extend x).depth = s.depth + 1 := by simp [depth]

theorem Follows.run (h : s.Follows edge) : Run edge s.source s.word s.nodeId := by
  induction s with
  | root q n => exact .nil n
  | step p inverse typeId q n ih => exact Run.concat_iff.mpr ⟨p.nodeId, ih h.1, h.2⟩

end SearchState

/-- `visited.find`. -/
def findState (visited : List SearchState) (key : Nat × Nat) : Option SearchState :=
  visited.find? fun s => s.key = key

abbrev keys (visited : List SearchState) : Set (Nat × Nat) := keysOf SearchState.key visited

section Visited

variable {visited : List SearchState} {s : SearchState} {v : Nat × Nat}

theorem isSome_findState : (findState visited v).isSome ↔ v ∈ keys visited := by
  simp [findState, keysOf]

theorem keys_concat : keys (visited ++ [s]) = insert s.key (keys visited) := keysOf_concat

end Visited

def productSteps (P : PathIndexProvider) (A : RPQAutomaton) (v : Nat × Nat) :
    List (EdgeLabel × Nat × Nat) :=
  (A.fromTo v.1).flatMap fun t =>
    (P.getIterator t.typeId t.inverse v.2).map fun m => ((t.typeId, t.inverse), (t.toState, m))

def ProductStep (G : QuadModel) (A : RPQAutomaton) (u : Nat × Nat) (l : EdgeLabel)
    (v : Nat × Nat) : Prop := A.IdStep u.1 l v.1 ∧ G.Step u.2 l v.2

section Product

variable {G : QuadModel} {P : PathIndexProvider} {A : RPQAutomaton} {u v : Nat × Nat}
  {l : EdgeLabel} {w : List EdgeLabel} {s : Nat} {r root : SearchState}

theorem mem_productSteps (hP : P.Serves G) :
    (l, v) ∈ productSteps P A u ↔ ProductStep G A u l v := by
  obtain ⟨q, m⟩ := v
  simp only [productSteps, List.mem_flatMap, List.mem_map, ProductStep, RPQAutomaton.IdStep]
  constructor
  · rintro ⟨t, ht, m', hm, heq⟩
    obtain ⟨rfl, rfl, rfl⟩ := by simpa using heq
    exact ⟨⟨t, ht, rfl, rfl⟩, hP.mem_getIterator.mp hm⟩
  · rintro ⟨⟨t, ht, rfl, rfl⟩, hm⟩
    exact ⟨t, ht, m, hP.mem_getIterator.mpr hm, rfl⟩

def vertices (G : QuadModel) (A : RPQAutomaton) : Finset (Nat × Nat) :=
  Finset.range A.rows ×ˢ G.nodes.toFinset

theorem card_vertices_le (G : QuadModel) (A : RPQAutomaton) :
    (vertices G A).card ≤ A.rows * G.nodes.length := by
  rw [vertices, Finset.card_product, Finset.card_range]
  exact Nat.mul_le_mul_left _ (List.toFinset_card_le G.nodes)

theorem productSteps_vertices (hP : P.Serves G) (hA : A.InRange) :
    ∀ x ∈ productSteps P A u, x.2 ∈ vertices G A := by
  intro x hx
  obtain ⟨⟨t, ht, hto, -⟩, hedge⟩ := (mem_productSteps hP).mp hx
  simp only [vertices, Finset.mem_product, Finset.mem_range, List.mem_toFinset]
  exact ⟨hto ▸ hA.toState_lt _ t ht, hedge.mem_nodes.2⟩

theorem run_productStep : Run (ProductStep G A) u w v ↔
    Run A.IdStep u.1 w v.1 ∧ Run G.Step u.2 w v.2 := Run.prod_iff

theorem run_of_derived (hP : P.Serves G)
    (h : Derived (productSteps P A) SearchState.key SearchState.extend (.root 0 s) r) :
    r.source = s ∧ r.Follows G.Step ∧ Run (ProductStep G A) (0, s) r.word r.key := by
  induction h with
  | root => exact ⟨rfl, trivial, .nil _⟩
  | step _ hx ih =>
    obtain ⟨hsource, hfollows, hrun⟩ := ih
    have hstep := (mem_productSteps hP).mp hx
    exact ⟨hsource, ⟨hfollows, hstep.2⟩, Run.concat_iff.mpr ⟨_, hrun, hstep⟩⟩

end Product

abbrev ProductSearch (P : PathIndexProvider) (A : RPQAutomaton) :=
  Search (productSteps P A) SearchState.key SearchState.extend

def Answer (G : QuadModel) (A : RPQAutomaton) (s m : Nat) : Prop :=
  s ∈ G.nodes ∧ ∃ w, A.acceptsIds w ∧ Run G.Step s w m

/-- The path of the state is a shortest accepted walk from `s` to its node. -/
structure ShortestWalk (G : QuadModel) (A : RPQAutomaton) (s : Nat) (r : SearchState) : Prop where
  source_eq : r.source = s
  follows : r.Follows G.Step
  accepted : A.acceptsIds r.word
  shortest : ∀ w, A.acceptsIds w → Run G.Step s w r.nodeId → r.word.length ≤ w.length

/-- The results answer the query from `s`: every node once, with a shortest walk. -/
structure Answers (G : QuadModel) (A : RPQAutomaton) (s : Nat) (results : List SearchState) :
    Prop where
  nodup : (results.map SearchState.nodeId).Nodup
  mem_iff : ∀ m, m ∈ results.map SearchState.nodeId ↔ Answer G A s m
  shortest : ∀ r ∈ results, ShortestWalk G A s r

section Found

variable {G : QuadModel} {P : PathIndexProvider} {A : RPQAutomaton} {s : Nat}
  {blocked vis : Set (Nat × Nat)} {out : List SearchState}

theorem exists_search (hP : P.Serves G) (hA : A.InRange) (s : Nat) (vis : Set (Nat × Nat)) :
    ∃ out, ProductSearch P A vis (.root 0 s) (productSteps P A (0, s)) [] out ∧
      out.length ≤ A.rows * G.nodes.length := by
  have hU : ∀ v ∈ vertices G A, ∀ x ∈ productSteps P A v, x.2 ∈ vertices G A :=
    fun _ _ => productSteps_vertices hP hA
  have hsearch : ∃ out, ProductSearch P A vis (.root 0 s) (productSteps P A (0, s)) [] out :=
    Search.exists_out (vertices G A) hU SearchState.key_extend_eq (productSteps_vertices hP hA)
      (by simp)
  obtain ⟨out, h⟩ := hsearch
  exact ⟨out, h, (h.length_le _ hU SearchState.key_extend_eq (productSteps_vertices hP hA) (by simp)).trans
    (card_vertices_le G A)⟩

theorem found_spec (hP : P.Serves G)
    (h : ProductSearch P A (insert (0, s) blocked) (.root 0 s) (productSteps P A (0, s)) [] out) :
    ∀ r ∈ out, r.source = s ∧ r.Follows G.Step ∧ Run (ProductStep G A) (0, s) r.word r.key ∧
      r.word ≠ [] ∧ r.key ∉ blocked := by
  intro r hr
  obtain ⟨hsource, hfollows, hrun⟩ := run_of_derived hP
    (h.derived .root (List.Subset.refl _) (by simp) r hr)
  have hnew := (h.nodup SearchState.key_extend_eq).2 r hr
  refine ⟨hsource, hfollows, hrun, fun hnil => hnew ?_, fun hb => hnew (Set.mem_insert_of_mem _ hb)⟩
  rw [hnil, Run.nil_iff] at hrun
  exact hrun ▸ Set.mem_insert _ _

/-- Every vertex that a walk reaches without entering `blocked` is found at a shortest one. -/
theorem exists_found (hP : P.Serves G)
    (h : ProductSearch P A (insert (0, s) blocked) (.root 0 s) (productSteps P A (0, s)) [] out)
    {w : List EdgeLabel} {v : Nat × Nat} (hv : v ≠ (0, s))
    (hw : Run (fun u l v => ProductStep G A u l v ∧ v ∉ blocked) (0, s) w v) :
    ∃ r ∈ out, r.key = v ∧ r.word.length ≤ w.length := by
  have hrun : Run (fun u l v => (l, v) ∈ productSteps P A u ∧ v ∉ blocked) (0, s) w v :=
    hw.mono fun u l v hstep => ⟨(mem_productSteps hP).mpr hstep.1, hstep.2⟩
  have hroot : ProductSearch P A (insert (SearchState.root 0 s).key blocked) (.root 0 s)
      (productSteps P A (SearchState.root 0 s).key) [] out := h
  obtain ⟨r, hr, rfl, hle⟩ := hroot.found_of_run SearchState.key_extend_eq
    SearchState.depth_extend hrun
  rcases List.mem_cons.mp hr with rfl | hr
  · exact absurd rfl hv
  · exact ⟨r, hr, rfl, by simpa [SearchState.depth, SearchState.word] using hle⟩

theorem filter_final_nodup {q : Nat} (h : (out.map SearchState.key).Nodup) :
    ((out.filter (·.automatonState = q)).map SearchState.nodeId).Nodup := by
  have hsub : ((out.filter (·.automatonState = q)).map SearchState.key).Nodup :=
    h.sublist (List.filter_sublist.map _)
  refine List.Nodup.of_map (fun m => (q, m)) ?_
  rw [List.map_map]
  convert hsub using 1
  apply List.map_congr_left
  intro r hr
  simp only [List.mem_filter, decide_eq_true_eq] at hr
  simp [SearchState.key, hr.2]

end Found

end Paths
end MillenniumDB
