import MillenniumDB.BfsSimpleEnum
import MillenniumDB.Lib.Walks
import MillenniumDB.PathPlan

/-!
# Property paths of SPARQL

The visitor of the SPARQL grammar pushes inversion down to the atoms, and `SparqlPathPlan` runs
the automaton of a path from the end that is bound, inverted when that is the object.  What it
returns is compared with the relation that the path denotes over the triples.
-/

namespace MillenniumDB
namespace Sparql

inductive PathMod
  | optional
  | star
  | plus
  deriving DecidableEq

/-- The primaries `iri` and `A`, `pathSequence` and `pathAlternative` with a first member and the
further ones, and `pathEltOrInverse`. -/
inductive PropertyPath
  | iri (iri : String)
  | a
  | sequence (first : PropertyPath) (rest : List PropertyPath)
  | alternative (first : PropertyPath) (rest : List PropertyPath)
  | element (inverse : Bool) (primary : PropertyPath) (mod : Option PathMod)

namespace PropertyPath

theorem induct {motive : PropertyPath → Prop} (iri : ∀ s, motive (.iri s)) (a : motive .a)
    (sequence : ∀ p ps, motive p → (∀ q ∈ ps, motive q) → motive (.sequence p ps))
    (alternative : ∀ p ps, motive p → (∀ q ∈ ps, motive q) → motive (.alternative p ps))
    (element : ∀ inverse p mod, motive p → motive (.element inverse p mod)) (p : PropertyPath) :
    motive p :=
  PropertyPath.rec (motive_1 := motive) (motive_2 := fun ps => ∀ p ∈ ps, motive p) iri a
    sequence alternative element (by simp) (fun _ _ hp hps => List.forall_mem_cons.mpr ⟨hp, hps⟩) p

end PropertyPath

/-- The IRI of `A`. -/
def rdfType : String := "http://www.w3.org/1999/02/22-rdf-syntax-ns#type"

/-- The end of `visitPathEltOrInverse`; the constructor of `PathKleeneStar` denulls its argument. -/
def modified (p : IPath) : Option PathMod → IPath
  | none => p
  | some .star => .kleeneStar p.denull
  | some .optional => if p.nullable then p else .optional p
  | some .plus => .sequence [p, .kleeneStar p.denull]

mutual

/-- The visitor, with `current_path_inverse`; the members of a list of one are visited alone. -/
def visit : PropertyPath → Bool → IPath
  | .iri iri, inverse => .atom iri inverse
  | .a, inverse => .atom rdfType inverse
  | .sequence first rest, inverse =>
    if rest.isEmpty then visit first inverse
    else if inverse then .sequence (visit first inverse :: visitAll rest inverse).reverse
    else .sequence (visit first inverse :: visitAll rest inverse)
  | .alternative first rest, inverse =>
    if rest.isEmpty then visit first inverse
    else .alternatives (visit first inverse :: visitAll rest inverse)
  | .element inverse' primary mod, inverse => modified (visit primary (inverse' ^^ inverse)) mod

def visitAll : List PropertyPath → Bool → List IPath
  | [], _ => []
  | p :: ps, inverse => visit p inverse :: visitAll ps inverse

end

inductive Verb
  | iri (iri : String)
  | path (path : IPath)

/-- `visitPath`: an atom that is not inverted is an IRI. -/
def visitPath (p : PropertyPath) : Verb :=
  match visit p false with
  | .atom iri false => .iri iri
  | path => .path path

/-- The triples of a graph in the indexes `pso` and `pos`. -/
structure RdfModel where
  pso : List (Nat × Nat × Nat)
  pos : List (Nat × Nat × Nat)
  same_triples : ∀ s p o, (p, o, s) ∈ pos ↔ (p, s, o) ∈ pso
  nodup_pso : pso.Nodup
  nodup_pos : pos.Nodup

def Modified (R : Nat → Nat → Prop) : Option PathMod → Nat → Nat → Prop
  | none => R
  | some .star => Relation.ReflTransGen R
  | some .optional => fun n m => n = m ∨ R n m
  | some .plus => Relation.TransGen R

def directed (inverse : Bool) (R : Nat → Nat → Prop) : Nat → Nat → Prop :=
  if inverse then Function.swap R else R

section

variable (G : RdfModel) (f : String → Nat)

mutual

/-- The terms that a path relates, where `f` gives the objects of IRIs. -/
def Relates : PropertyPath → Nat → Nat → Prop
  | .iri iri, n, m => (f iri, n, m) ∈ G.pso
  | .a, n, m => (f rdfType, n, m) ∈ G.pso
  | .sequence first rest, n, m => ∃ k, Relates first n k ∧ RelatesAll rest k m
  | .alternative first rest, n, m => Relates first n m ∨ RelatesSome rest n m
  | .element inverse primary mod, n, m => Modified (directed inverse (Relates primary)) mod n m

def RelatesAll : List PropertyPath → Nat → Nat → Prop
  | [], n, m => n = m
  | p :: ps, n, m => ∃ k, Relates p n k ∧ RelatesAll ps k m

def RelatesSome : List PropertyPath → Nat → Nat → Prop
  | [], _, _ => False
  | p :: ps, n, m => Relates p n m ∨ RelatesSome ps n m

end

def Step (n : Nat) (l : PathLabel) (m : Nat) : Prop :=
  directed l.2 (fun n m => (f l.1, n, m) ∈ G.pso) n m

end

section

variable {G : RdfModel} {f : String → Nat} {R : Nat → Nat → Prop}

theorem directed_directed (i j : Bool) : directed i (directed j R) = directed (j ^^ i) R := by
  cases i <;> cases j <;> rfl

theorem modified_directed (inverse : Bool) (mod : Option PathMod) :
    Modified (directed inverse R) mod = directed inverse (Modified R mod) := by
  cases inverse with
  | false => rfl
  | true =>
    funext n m
    cases mod with
    | none => rfl
    | some mod =>
      cases mod with
      | optional => exact propext (or_congr_left eq_comm)
      | star => exact propext Relation.reflTransGen_swap
      | plus => exact propext Relation.transGen_swap

theorem walks_modified (p : IPath) (mod : Option PathMod) :
    Walks (Step G f) (modified p mod).words = Modified (Walks (Step G f) p.words) mod := by
  funext n m
  apply propext
  cases mod with
  | none => rfl
  | some mod =>
    cases mod with
    | optional =>
      have hwords : (modified p (some .optional)).words = 1 + p.words := by
        rw [modified]
        split_ifs with h
        · exact (sup_eq_right.mpr (IPath.one_le_words p h)).symm
        · rfl
      rw [hwords, walks_add, walks_one]
      rfl
    | star =>
      rw [modified, IPath.words, IPath.kstar_words_denull, walks_kstar]
      rfl
    | plus =>
      rw [modified, IPath.words, IPath.productWords, IPath.productWords, IPath.productWords,
        IPath.words, IPath.kstar_words_denull, mul_one, walks_mul_kstar]
      rfl

theorem walks_visitAll (ps : List PropertyPath)
    (h : ∀ p ∈ ps, Walks (Step G f) (visit p false).words = Relates G f p) (n m : Nat) :
    Walks (Step G f) (IPath.productWords (visitAll ps false)) n m ↔ RelatesAll G f ps n m := by
  induction ps generalizing n with
  | nil => exact walks_one
  | cons p ps ih =>
    obtain ⟨hp, hps⟩ := List.forall_mem_cons.mp h
    rw [visitAll, IPath.productWords, walks_mul, RelatesAll]
    simp only [hp, ih hps]

theorem walks_visitAll_reverse (ps : List PropertyPath)
    (h : ∀ p ∈ ps, Walks (Step G f) (visit p true).words = Function.swap (Relates G f p)) (n m : Nat) :
    Walks (Step G f) (IPath.productWords (visitAll ps true).reverse) n m ↔ RelatesAll G f ps m n := by
  induction ps generalizing m with
  | nil => exact walks_one.trans eq_comm
  | cons p ps ih =>
    obtain ⟨hp, hps⟩ := List.forall_mem_cons.mp h
    rw [visitAll, List.reverse_cons, IPath.productWords_append, IPath.productWords, IPath.productWords,
      mul_one, walks_mul, RelatesAll]
    simp only [hp, ih hps, Function.swap, and_comm]

theorem walks_unionWords (inverse : Bool) (ps : List PropertyPath)
    (h : ∀ p ∈ ps, Walks (Step G f) (visit p inverse).words = directed inverse (Relates G f p))
    (n m : Nat) : Walks (Step G f) (IPath.unionWords (visitAll ps inverse)) n m ↔
      directed inverse (RelatesSome G f ps) n m := by
  induction ps with
  | nil =>
    rw [visitAll, IPath.unionWords]
    refine iff_of_false walks_zero ?_
    cases inverse <;> exact id
  | cons p ps ih =>
    obtain ⟨hp, hps⟩ := List.forall_mem_cons.mp h
    rw [visitAll, IPath.unionWords, walks_add, hp, ih hps]
    cases inverse <;> rfl

theorem walks_visit (p : PropertyPath) : ∀ inverse : Bool,
    Walks (Step G f) (visit p inverse).words = directed inverse (Relates G f p) := by
  induction p using PropertyPath.induct with
  | iri s =>
    intro inverse
    funext n m
    exact propext walks_singleton
  | a =>
    intro inverse
    funext n m
    exact propext walks_singleton
  | sequence p ps hp hps =>
    intro inverse
    cases ps with
    | nil =>
      rw [visit, List.isEmpty_nil, if_pos rfl, hp]
      congr 1
      funext n m
      exact propext ⟨fun h => ⟨m, h, rfl⟩, fun ⟨_, h, heq⟩ => heq ▸ h⟩
    | cons q ps =>
      funext n m
      apply propext
      cases inverse with
      | false =>
        have hall := walks_visitAll (p :: q :: ps) (List.forall_mem_cons.mpr
          ⟨hp false, fun r hr => hps r hr false⟩) n m
        exact hall
      | true =>
        have hall := walks_visitAll_reverse (p :: q :: ps) (List.forall_mem_cons.mpr
          ⟨hp true, fun r hr => hps r hr true⟩) n m
        exact hall
  | alternative p ps hp hps =>
    intro inverse
    cases ps with
    | nil =>
      rw [visit, List.isEmpty_nil, if_pos rfl, hp]
      congr 1
      funext n m
      exact propext (or_iff_left id).symm
    | cons q ps =>
      funext n m
      apply propext
      have hall := walks_unionWords inverse (p :: q :: ps) (List.forall_mem_cons.mpr
        ⟨hp inverse, fun r hr => hps r hr inverse⟩) n m
      cases inverse <;> exact hall
  | element inverse' p mod hp =>
    intro inverse
    rw [visit, walks_modified, hp, modified_directed]
    have helement : Relates G f (.element inverse' p mod) =
        directed inverse' (Modified (Relates G f p) mod) := by
      rw [← modified_directed]
      rfl
    rw [helement, directed_directed]

theorem walks_invert (p : IPath) (n m : Nat) :
    Walks (Step G f) p.invert.words n m ↔ Walks (Step G f) p.words m n := by
  have hflip : ∀ k l k', Step G f k l k' → Step G f k' (IPath.flipLabel l) k := by
    intro k l k' h
    obtain ⟨iri, inverse⟩ := l
    cases inverse <;> exact h
  rw [IPath.words_invert]
  constructor
  · intro ⟨w, hw, hrun⟩
    exact ⟨_, IPath.mem_invertWords.mp hw, hrun.reverse hflip⟩
  · intro ⟨w, hw, hrun⟩
    refine ⟨(w.map IPath.flipLabel).reverse, ?_, hrun.reverse hflip⟩
    rw [IPath.mem_invertWords]
    simpa [IPath.flipLabel, Function.comp_def] using hw

end

structure SparqlPathPlan where
  subject : Paths.Id
  path : IPath
  object : Paths.Id
  subjectAssigned : Bool
  objectAssigned : Bool

/-- `BFSIterEnum2`, with the end it starts from and the variable of the other end. -/
structure PathEnum where
  start : Paths.Id
  endVar : Nat
  automaton : RPQAutomaton

namespace SparqlPathPlan

open Paths.PathPlan (holdsObject setInputVar assignedIn)

def new (subject : Paths.Id) (path : IPath) (object : Paths.Id) : SparqlPathPlan :=
  ⟨subject, path, object, holdsObject subject, holdsObject object⟩

def setInputVars (inputVars : List Nat) (p : SparqlPathPlan) : SparqlPathPlan :=
  { p with
    subjectAssigned := setInputVar inputVars p.subjectAssigned p.subject
    objectAssigned := setInputVar inputVars p.objectAssigned p.object }

def planned (subject : Paths.Id) (path : IPath) (object : Paths.Id) (inputs : List (List Nat)) :
    SparqlPathPlan :=
  inputs.foldl (fun p inputVars => p.setInputVars inputVars) (new subject path object)

/-- `get_binding_id_iter`; `none` is the null pointer, `bad_variant_access` what `std::get`
throws. -/
def getBindingIdIter (f : String → Nat) (p : SparqlPathPlan) : Except String (Option PathEnum) :=
  if p.subjectAssigned then
    if p.objectAssigned then .ok none
    else
      match p.object with
      | .varId v => .ok (some ⟨p.subject, v, p.path.getRpqAutomaton f⟩)
      | .objectId _ => .error "bad_variant_access"
  else if p.objectAssigned then
    match p.subject with
    | .varId v => .ok (some ⟨p.object, v, p.path.invert.getRpqAutomaton f⟩)
    | .objectId _ => .error "bad_variant_access"
  else .ok none

def boundEnd (p : SparqlPathPlan) : Paths.Id := if p.subjectAssigned then p.subject else p.object

def builtPath (p : SparqlPathPlan) : IPath := if p.subjectAssigned then p.path else p.path.invert

end SparqlPathPlan

namespace RdfModel

/-- `RdfModelIndexProvider` over the two indexes. -/
def provider (G : RdfModel) : PathIndexProvider := rdfModelIndexProvider G.pso G.pos

def terms (G : RdfModel) : List Nat := G.pso.flatMap fun r => [r.2.1, r.2.2]

end RdfModel

namespace PathEnum

variable (G : RdfModel)

def begin (b : Binding) (op : PathEnum) : Binding × Paths.IterEnum := (b, .start (op.start.value b))

/-- `next`, with the rows as the bindings that are written. -/
def next (fuel : Nat) (op : PathEnum) (st : Binding × Paths.IterEnum) :
    Option Binding × Binding × Paths.IterEnum :=
  let called := Paths.BFSIterEnum2.next G.provider op.automaton fuel st.2
  match called.1 with
  | none => (none, st.1, called.2)
  | some r =>
    let b' := Function.update st.1 op.endVar r.nodeId
    (some b', b', called.2)

def callFuel (op : PathEnum) : Nat := 2 * (op.automaton.rows * (G.terms.length + 1)) + 1

end PathEnum

namespace SparqlPathPlan

def ends (p : SparqlPathPlan) (row : Binding) : Nat × Nat := (p.subject.value row, p.object.value row)

def Matches (G : RdfModel) (f : String → Nat) (path : PropertyPath) (p : SparqlPathPlan) (b : Binding)
    (n m : Nat) : Prop :=
  Relates G f path n m ∧ (p.subjectAssigned → p.subject.value b = n) ∧
    (p.objectAssigned → p.object.value b = m)

/-- The operator returns the pairs that match, each of them once. -/
def Answered (G : RdfModel) (f : String → Nat) (path : PropertyPath) (p : SparqlPathPlan)
    (b : Binding) : Prop :=
  ∃ op, p.getBindingIdIter f = .ok (some op) ∧ ∀ fuel, op.callFuel G ≤ fuel →
    ∃ rows, Yields (op.next G fuel) (op.begin b) rows ∧ (rows.map p.ends).Nodup ∧
      ∀ n m, (n, m) ∈ rows.map p.ends ↔ p.Matches G f path b n m

def Returned (G : RdfModel) (f : String → Nat) (p : SparqlPathPlan) (b : Binding) (n m : Nat) : Prop :=
  ∃ op, p.getBindingIdIter f = .ok (some op) ∧ ∃ rows,
    Yields (op.next G (op.callFuel G)) (op.begin b) rows ∧ (n, m) ∈ rows.map p.ends

end SparqlPathPlan

/-- The path may be empty, its automaton has a final state beside the start, and a walk that is
not empty leads from the term back to it. -/
def Reenters (G : RdfModel) (f : String → Nat) (path : IPath) (s : Nat) : Prop :=
  path.nullable ∧ (path.getRpqAutomaton f).finalState ≠ 0 ∧
    ∃ w ∈ path.words, w ≠ [] ∧ Run (Step G f) s w s

namespace RdfModel

/-- The graph of the triples, with a term that may be in none of them. -/
def quad (G : RdfModel) (s : Nat) : QuadModel where
  nodes := s :: G.terms
  typeFromToEdge := G.pso.map fun r => (r.1, r.2.1, r.2.2, 0)
  toTypeFromEdge := G.pos.map fun r => (r.2.1, r.1, r.2.2, 0)
  same_edges type source target edge := by
    have hsame := G.same_triples source type target
    constructor
    · intro h
      obtain ⟨⟨p, o, s⟩, hr, heq⟩ := List.mem_map.mp h
      cases heq
      exact List.mem_map.mpr ⟨_, hsame.mp hr, rfl⟩
    · intro h
      obtain ⟨⟨p, s, o⟩, hr, heq⟩ := List.mem_map.mp h
      cases heq
      exact List.mem_map.mpr ⟨_, hsame.mpr hr, rfl⟩
  endpoints type source target edge h := by
    obtain ⟨⟨p, subject, object⟩, hr, heq⟩ := List.mem_map.mp h
    cases heq
    have hmem : ∀ x ∈ [subject, object], x ∈ s :: G.terms := fun x hx =>
      List.mem_cons_of_mem _ (List.mem_flatMap.mpr ⟨_, hr, hx⟩)
    exact ⟨hmem subject (by simp), hmem object (by simp)⟩
  nodup_forward := G.nodup_pso.map fun r r' h => by
    simp only [Prod.mk.injEq] at h
    exact Prod.ext h.1 (Prod.ext h.2.1 h.2.2.1)
  nodup_backward := G.nodup_pos.map fun r r' h => by
    simp only [Prod.mk.injEq] at h
    exact Prod.ext h.2.1 (Prod.ext h.1 h.2.2.1)

variable {G : RdfModel} {f : String → Nat} {s n m : Nat}

theorem quad_step {l : PathLabel} : (G.quad s).Step n (idLabel f l) m ↔ Step G f n l m := by
  obtain ⟨iri, inverse⟩ := l
  cases inverse <;> simp [QuadModel.Step, quad, idLabel, Step, directed, Function.swap]

theorem run_quad {w : List PathLabel} :
    Run (G.quad s).Step n (w.map (idLabel f)) m ↔ Run (Step G f) n w m := by
  induction w generalizing n with
  | nil => simp
  | cons l w ih => rw [List.map_cons, Run.cons_iff, Run.cons_iff]; simp only [quad_step, ih]

theorem serves_provider (G : RdfModel) (s : Nat) : G.provider.Serves (G.quad s) where
  nodeExists_of_mem _ := rfl
  mem_getIterator := by
    intro l n m
    obtain ⟨typeId, inverse⟩ := l
    cases inverse with
    | false => simp [provider, rdfModelIndexProvider, QuadModel.Step, quad]
    | true => simp [provider, rdfModelIndexProvider, QuadModel.Step, quad, ← G.same_triples]

end RdfModel

open Paths

section

variable {G : RdfModel} {f : String → Nat} {path : IPath} {s fuel : Nat}

theorem accepts_iff (hpath : path.BuiltRight) {w : List EdgeLabel} :
    (path.getRpqAutomaton f).acceptsIds w ↔ ∃ u ∈ path.words, u.map (idLabel f) = w := by
  obtain ⟨-, hrows⟩ := path.transitions_getRpqAutomaton hpath.startsFresh f
  rw [acceptsIds_iff fun i t ht => (hrows i t ht).1]
  simp only [hpath.accepts_iff f]

theorem startReached_iff (hpath : path.BuiltRight) :
    StartReached (G.quad s) (path.getRpqAutomaton f) s ↔ Reenters G f path s := by
  have hstart : (path.getRpqAutomaton f).startIsFinal ↔ path.nullable := by
    have hnil : (path.getRpqAutomaton f).accepts [] ↔ [] ∈ path.words := hpath.accepts_iff f []
    rw [RPQAutomaton.accepts] at hnil
    constructor
    · intro h
      exact path.nullable_of_nil_mem (hnil.mp (.inl ⟨rfl, h⟩))
    · intro h
      rcases hnil.mpr (path.one_le_words h rfl) with ⟨-, h⟩ | ⟨h, -⟩
      · exact h
      · exact absurd rfl h
  have haccepts : ∀ w ≠ [], (path.getRpqAutomaton f).acceptsIds w ↔
      Run (path.getRpqAutomaton f).IdStep 0 w (path.getRpqAutomaton f).finalState := by
    intro w hw
    simp [RPQAutomaton.acceptsIds, hw]
  unfold StartReached Reenters
  rw [hstart]
  refine and_congr_right fun _ => and_congr_right fun _ => ?_
  constructor
  · rintro ⟨w, hw, hauto, hrun⟩
    obtain ⟨u, hu, rfl⟩ := (accepts_iff hpath).mp ((haccepts w hw).mpr hauto)
    exact ⟨u, hu, by simpa using hw, RdfModel.run_quad.mp hrun⟩
  · rintro ⟨u, hu, hne, hrun⟩
    have hw : u.map (idLabel f) ≠ [] := by simpa using hne
    exact ⟨_, hw, (haccepts _ hw).mp ((accepts_iff hpath).mpr ⟨u, hu, rfl⟩),
      RdfModel.run_quad.mpr hrun⟩

/-- The search returns the terms that a walk of the path ends at, and each of them once unless
the start is entered again. -/
theorem exists_results (hpath : path.BuiltRight)
    (hfuel : 2 * ((path.getRpqAutomaton f).rows * (G.terms.length + 1)) + 1 ≤ fuel) (s : Nat) :
    ∃ results, Yields (BFSIterEnum2.next G.provider (path.getRpqAutomaton f) fuel) (.start s) results ∧
      (∀ m, m ∈ results.map SearchState.nodeId ↔ Walks (Step G f) path.words s m) ∧
      ((results.map SearchState.nodeId).Nodup ↔ ¬ Reenters G f path s) := by
  obtain ⟨hpos, hrows⟩ := path.transitions_getRpqAutomaton hpath.startsFresh f
  have hrange : (path.getRpqAutomaton f).InRange := ⟨hpos, fun i t ht => (hrows i t ht).2⟩
  have halone := path.finalStateAlone_getRpqAutomaton hpath.startsFresh f
  have hserves := G.serves_provider s
  obtain ⟨out, h, hlength⟩ := exists_search hserves hrange s {(0, s)}
  have hnone : insert (0, s) ∅ = ({(0, s)} : Set (Nat × Nat)) := LawfulSingleton.insert_empty_eq _
  have hnodes : (G.quad s).nodes.length = G.terms.length + 1 := rfl
  rw [hnodes] at hlength
  refine ⟨_, BFSIterEnum2.yields_next rfl h (by omega), fun m => ?_, ?_⟩
  · rw [← hnone] at h
    constructor
    · intro hm
      obtain ⟨r, hr, rfl⟩ := List.mem_map.mp hm
      rcases List.mem_append.mp hr with hr | hr
      · obtain ⟨hstart, rfl⟩ := mem_emptyWalk.mp hr
        have hnil : [] ∈ path.words := (hpath.accepts_iff f []).mp (.inl ⟨rfl, hstart⟩)
        exact ⟨[], hnil, .nil _⟩
      · simp only [List.mem_filter, decide_eq_true_eq] at hr
        obtain ⟨-, -, hrun, hne, -⟩ := found_spec hserves h r hr.1
        obtain ⟨hauto, hwalk⟩ := run_productStep.mp hrun
        have haccepts : (path.getRpqAutomaton f).acceptsIds r.word := .inr ⟨hne, by
          rw [← hr.2]
          exact hauto⟩
        obtain ⟨u, hu, hword⟩ := (accepts_iff hpath).mp haccepts
        rw [← hword] at hwalk
        exact ⟨u, hu, RdfModel.run_quad.mp hwalk⟩
    · intro ⟨u, hu, hrun⟩
      have hwalk := (RdfModel.run_quad (s := s)).mpr hrun
      have haccepts := (accepts_iff (f := f) hpath).mpr ⟨u, hu, rfl⟩
      by_cases hempty : (path.getRpqAutomaton f).startIsFinal ∧ m = s
      · obtain ⟨hstart, rfl⟩ := hempty
        exact List.mem_map.mpr ⟨_, List.mem_append_left _ (mem_emptyWalk.mpr ⟨hstart, rfl⟩), rfl⟩
      · rcases haccepts with ⟨hnil, hstart⟩ | ⟨-, hauto⟩
        · rw [hnil] at hwalk
          exact absurd ⟨hstart, (Run.nil_iff.mp hwalk).symm⟩ hempty
        · have hm : ((path.getRpqAutomaton f).finalState, m) ≠ (0, s) := by
            intro heq
            obtain ⟨hzero, hms⟩ := Prod.mk.inj heq
            exact hempty ⟨halone.start_marked hzero, hms⟩
          obtain ⟨r, hr, hkey, -⟩ := exists_found hserves h hm
            ((run_productStep.mpr ⟨hauto, hwalk⟩).avoiding (by simp))
          obtain ⟨hfinal, hnode⟩ := Prod.mk.inj hkey
          refine List.mem_map.mpr ⟨r, List.mem_append_right _ (List.mem_filter.mpr ⟨hr, ?_⟩), hnode⟩
          simpa using hfinal
  · rw [← hnone] at h
    rw [← startReached_iff hpath]
    constructor
    · intro hnodup hreached
      exact not_nodup_of_reached hserves hreached h hnodup
    · intro hreached
      exact answers_nodup hserves hreached h

theorem PathEnum.yields_rows {op : PathEnum} {b : Binding} {results : List SearchState}
    (h : Yields (BFSIterEnum2.next G.provider op.automaton fuel) (.start (op.start.value b)) results) :
    Yields (op.next G fuel) (op.begin b)
      (results.map fun r => Function.update b op.endVar r.nodeId) := by
  apply h.map (fun s t => t.2 = s ∧ ∀ m, Function.update t.1 op.endVar m = Function.update b op.endVar m)
    _ _ ⟨rfl, fun m => rfl⟩
  intro s t ⟨ht, hb⟩
  subst ht
  unfold PathEnum.next
  cases hnext : (BFSIterEnum2.next G.provider op.automaton fuel t.2).1 with
  | none => exact ⟨by simp [hnext], by simp [hnext], by simpa [hnext] using hb⟩
  | some r =>
    refine ⟨by simp [hnext, hb], by simp [hnext], fun m => ?_⟩
    simp [hnext, hb]

end

namespace SparqlPathPlan

open Paths.PathPlan (holdsObject setInputVar assignedIn setInputVar_assignedIn value_congr
  assignedIn_eq_false)

section

variable {G : RdfModel} {f : String → Nat} {path : PropertyPath} {built : IPath} {b : Binding}
  {p : SparqlPathPlan} {start : Paths.Id} {v : Nat} {pair : Nat → Nat × Nat}

/-- An operator of the plan that runs a path from `start`, where `pair` is what a row says when
it binds the other end. -/
structure Runs (f : String → Nat) (p : SparqlPathPlan) (b : Binding) (built : IPath)
    (start : Paths.Id) (v : Nat) (pair : Nat → Nat × Nat) : Prop where
  operator : p.getBindingIdIter f = .ok (some ⟨start, v, built.getRpqAutomaton f⟩)
  ends : ∀ m, p.ends (Function.update b v m) = pair m
  injective : Function.Injective pair

theorem Runs.exists_rows (h : Runs f p b built start v pair) (hbuilt : built.BuiltRight) {fuel : Nat}
    (hfuel : PathEnum.callFuel G ⟨start, v, built.getRpqAutomaton f⟩ ≤ fuel) :
    ∃ rows, Yields (PathEnum.next G fuel ⟨start, v, built.getRpqAutomaton f⟩)
        (PathEnum.begin b ⟨start, v, built.getRpqAutomaton f⟩) rows ∧
      (∀ x, x ∈ rows.map p.ends ↔ ∃ m, Walks (Step G f) built.words (start.value b) m ∧ pair m = x) ∧
      ((rows.map p.ends).Nodup ↔ ¬ Reenters G f built (start.value b)) := by
  obtain ⟨results, hyields, hmem, hnodup⟩ := exists_results hbuilt hfuel (start.value b)
  have hends : (results.map fun r => Function.update b v r.nodeId).map p.ends =
      (results.map SearchState.nodeId).map pair := by
    simp only [List.map_map]
    exact List.map_congr_left fun r _ => h.ends r.nodeId
  refine ⟨_, PathEnum.yields_rows hyields, fun x => ?_, ?_⟩
  · rw [hends, List.mem_map]
    simp only [hmem]
  · rw [hends, List.nodup_map_iff h.injective]
    exact hnodup

theorem Runs.answered_iff (h : Runs f p b built start v pair) (hbuilt : built.BuiltRight)
    (hmatches : ∀ n m, p.Matches G f path b n m ↔
      ∃ k, Walks (Step G f) built.words (start.value b) k ∧ pair k = (n, m)) :
    p.Answered G f path b ↔ ¬ Reenters G f built (start.value b) := by
  constructor
  · intro ⟨op, hop, hanswered⟩
    have hrun : op = ⟨start, v, built.getRpqAutomaton f⟩ :=
      Option.some.inj (Except.ok.inj (hop.symm.trans h.operator))
    subst hrun
    obtain ⟨rows, hyields, hnodup, -⟩ := hanswered _ le_rfl
    obtain ⟨rows', hyields', -, hiff⟩ := h.exists_rows (G := G) hbuilt le_rfl
    rw [hyields.unique hyields'] at hnodup
    exact hiff.mp hnodup
  · intro hreenters
    refine ⟨_, h.operator, fun fuel hfuel => ?_⟩
    obtain ⟨rows, hyields, hmem, hiff⟩ := h.exists_rows hbuilt hfuel
    exact ⟨rows, hyields, hiff.mpr hreenters, fun n m => (hmem (n, m)).trans (hmatches n m).symm⟩

theorem Runs.returned_iff (h : Runs f p b built start v pair) (hbuilt : built.BuiltRight) {n m : Nat} :
    p.Returned G f b n m ↔
      ∃ k, Walks (Step G f) built.words (start.value b) k ∧ pair k = (n, m) := by
  obtain ⟨rows, hyields, hmem, -⟩ := h.exists_rows (G := G) hbuilt le_rfl
  rw [← hmem (n, m)]
  constructor
  · intro ⟨op, hop, rows', hyields', hrow⟩
    have hrun : op = ⟨start, v, built.getRpqAutomaton f⟩ :=
      Option.some.inj (Except.ok.inj (hop.symm.trans h.operator))
    subst hrun
    rwa [hyields'.unique hyields] at hrow
  · intro hrow
    exact ⟨_, h.operator, rows, hyields, hrow⟩

end

def bound (subject : Paths.Id) (path : IPath) (object : Paths.Id) (vars : List Nat) : SparqlPathPlan :=
  ⟨subject, path, object, assignedIn vars subject, assignedIn vars object⟩

theorem planned_eq_bound (subject : Paths.Id) (path : IPath) (object : Paths.Id)
    (inputs : List (List Nat)) :
    planned subject path object inputs = bound subject path object inputs.flatten := by
  have hnew : new subject path object = bound subject path object [] := by
    cases subject <;> cases object <;> rfl
  rw [planned, hnew, foldl_set_eq, List.nil_append]
  intro vars vars'
  simp only [bound, setInputVars, setInputVar_assignedIn]

section

variable {f : String → Nat} {built : IPath} {b : Binding} {vars : List Nat} {subject object : Paths.Id}
  {v : Nat}

theorem value_update {id : Paths.Id} (h : assignedIn vars id = true) (hv : v ∉ vars) (m : Nat) :
    id.value (Function.update b v m) = id.value b := by
  apply value_congr h
  intro u hu
  apply Function.update_of_ne
  intro heq
  exact hv (heq ▸ hu)

theorem runs_from (hsubject : assignedIn vars subject = true) (hv : v ∉ vars) :
    Runs f (bound subject built (.varId v) vars) b built subject v fun m => (subject.value b, m) where
  operator := by
    have hobject : assignedIn vars (.varId v) = false := decide_eq_false hv
    simp [getBindingIdIter, bound, hsubject, hobject]
  ends m := by
    refine Prod.ext (value_update hsubject hv m) ?_
    exact Function.update_self ..
  injective _ _ h := (Prod.mk.inj h).2

theorem runs_to (hobject : assignedIn vars object = true) (hv : v ∉ vars) :
    Runs f (bound (.varId v) built object vars) b built.invert object v fun n => (n, object.value b) where
  operator := by
    have hsubject : assignedIn vars (.varId v) = false := decide_eq_false hv
    simp [getBindingIdIter, bound, hsubject, hobject]
  ends n := by
    refine Prod.ext ?_ (value_update hobject hv n)
    exact Function.update_self ..
  injective _ _ h := (Prod.mk.inj h).1

variable {G : RdfModel} {path : PropertyPath}

theorem relates_iff (hpath : visitPath path = .path built) {n m : Nat} :
    Relates G f path n m ↔ Walks (Step G f) built.words n m := by
  have hbuilt : visit path false = built := by
    unfold visitPath at hpath
    split at hpath
    · cases hpath
    · exact Verb.path.inj hpath
  rw [← hbuilt, walks_visit]
  rfl

theorem matches_from (hpath : visitPath path = .path built) (hsubject : assignedIn vars subject = true)
    (hv : v ∉ vars) (n m : Nat) : (bound subject built (.varId v) vars).Matches G f path b n m ↔
      ∃ k, Walks (Step G f) built.words (subject.value b) k ∧ (subject.value b, k) = (n, m) := by
  have hobject : assignedIn vars (.varId v) = false := decide_eq_false hv
  simp only [Matches, bound, hsubject, hobject, relates_iff hpath, Prod.mk.injEq]
  constructor
  · intro ⟨hwalk, hn, _⟩
    have hn := hn trivial
    exact ⟨m, hn ▸ hwalk, hn, rfl⟩
  · intro ⟨k, hwalk, hn, hk⟩
    subst hk
    exact ⟨hn ▸ hwalk, fun _ => hn, fun h => Bool.noConfusion h⟩

theorem matches_to (hpath : visitPath path = .path built) (hobject : assignedIn vars object = true)
    (hv : v ∉ vars) (n m : Nat) : (bound (.varId v) built object vars).Matches G f path b n m ↔
      ∃ k, Walks (Step G f) built.invert.words (object.value b) k ∧ (k, object.value b) = (n, m) := by
  have hsubject : assignedIn vars (.varId v) = false := decide_eq_false hv
  simp only [Matches, bound, hsubject, hobject, relates_iff hpath, walks_invert, Prod.mk.injEq]
  constructor
  · intro ⟨hwalk, _, hm⟩
    have hm := hm trivial
    exact ⟨n, hm ▸ hwalk, rfl, hm⟩
  · intro ⟨k, hwalk, hk, hm⟩
    subst hk
    exact ⟨hm ▸ hwalk, fun h => Bool.noConfusion h, fun _ => hm⟩

theorem bound_answered_iff (hpath : visitPath path = .path built)
    (hbuilt : (bound subject built object vars).builtPath.BuiltRight)
    (hone : assignedIn vars subject ≠ assignedIn vars object) :
    (bound subject built object vars).Answered G f path b ↔
      ¬ Reenters G f (bound subject built object vars).builtPath
        ((bound subject built object vars).boundEnd.value b) := by
  cases hsubject : assignedIn vars subject with
  | true =>
    have hobject : assignedIn vars object = false := by simpa [hsubject] using hone.symm
    obtain ⟨v, rfl, hv⟩ := assignedIn_eq_false hobject
    have hruns : Runs f (bound subject built (.varId v) vars) b built subject v _ :=
      runs_from hsubject hv
    have hbuilt : built.BuiltRight := by simpa [builtPath, bound, hsubject] using hbuilt
    have hanswered := hruns.answered_iff (G := G) hbuilt (matches_from hpath hsubject hv)
    simpa [builtPath, boundEnd, bound, hsubject] using hanswered
  | false =>
    have hobject : assignedIn vars object = true := by simpa [hsubject] using hone.symm
    obtain ⟨v, rfl, hv⟩ := assignedIn_eq_false hsubject
    have hruns : Runs f (bound (.varId v) built object vars) b built.invert object v _ :=
      runs_to hobject hv
    have hbuilt : built.invert.BuiltRight := by simpa [builtPath, bound, hsubject] using hbuilt
    have hanswered := hruns.answered_iff (G := G) hbuilt (matches_to hpath hobject hv)
    simpa [builtPath, boundEnd, bound, hsubject] using hanswered

end

/-- A plan with one end bound whose path the construction gets right returns the terms that the path
relates to the bound one, each once, exactly when no walk enters the bound term again beside the empty
one.  Where it gets the inverse right too, what is returned from the subjects and from the objects are
the same pairs. -/
theorem pathAnswered_iff (G : RdfModel) (f : String → Nat) (b : Binding) (path : PropertyPath)
    (built : IPath) (hpath : visitPath path = .path built) (subject object : Paths.Id)
    (inputs : List (List Nat))
    (hone : assignedIn inputs.flatten subject ≠ assignedIn inputs.flatten object) :
    ((planned subject built object inputs).builtPath.BuiltRight →
      ((planned subject built object inputs).Answered G f path b ↔
        ¬ Reenters G f (planned subject built object inputs).builtPath
          ((planned subject built object inputs).boundEnd.value b))) ∧
    (built.BuiltRight → built.invert.BuiltRight → ∀ n m v,
      (planned (.objectId n) built (.varId v) []).Returned G f b n m ↔
        (planned (.varId v) built (.objectId m) []).Returned G f b n m) := by
  simp only [planned_eq_bound]
  refine ⟨fun hbuilt => bound_answered_iff hpath hbuilt hone, fun hbuilt hinvert n m v => ?_⟩
  have hv : v ∉ ([] : List (List Nat)).flatten := List.not_mem_nil
  have hfrom : Runs f (bound (.objectId n) built (.varId v) _) b built (.objectId n) v _ :=
    runs_from rfl hv
  -- with the object bound the operator runs the inverse from it
  have hto : Runs f (bound (.varId v) built (.objectId m) _) b built.invert (.objectId m) v _ :=
    runs_to rfl hv
  rw [hfrom.returned_iff hbuilt, hto.returned_iff hinvert]
  simp only [walks_invert, Prod.mk.injEq]
  constructor
  · intro ⟨k, hwalk, _, hk⟩
    subst hk
    exact ⟨n, hwalk, rfl, rfl⟩
  · intro ⟨k, hwalk, hk, _⟩
    subst hk
    exact ⟨m, hwalk, rfl, rfl⟩

def oneLoop : RdfModel where
  pso := [(0, 0, 0)]
  pos := [(0, 0, 0)]
  same_triples := by
    intros
    simp
    omega
  nodup_pso := by simp
  nodup_pos := by simp

theorem pathAnswered_oneLoop :
    (planned (.objectId 0) (.atom "a" true) (.varId 1) []).Answered oneLoop (fun _ => 0)
        (.element true (.iri "a") none) (fun _ => 0) ∧
    ∀ n m v, (planned (.objectId n) (.atom "a" true) (.varId v) []).Returned oneLoop (fun _ => 0)
        (fun _ => 0) n m ↔
      (planned (.varId v) (.atom "a" true) (.objectId m) []).Returned oneLoop (fun _ => 0)
        (fun _ => 0) n m := by
  have hiff := pathAnswered_iff oneLoop (fun _ => 0) (fun _ => 0) (.element true (.iri "a") none)
    (.atom "a" true) (by simp [visitPath, visit, modified]) (.objectId 0) (.varId 1) [] (by decide)
  refine ⟨(hiff.1 (Paths.PathPlan.builtRight_atom true)).mpr fun hreenters => ?_,
    hiff.2 (Paths.PathPlan.builtRight_atom true) (Paths.PathPlan.builtRight_atom false)⟩
  exact Bool.noConfusion hreenters.1

theorem builtRight_optional (inverse : Bool) :
    (IPath.optional (.atom "a" inverse)).BuiltRight where
  startsFresh := by simp [IPath.StartsFresh, IPath.startEntered]
  mergesHarmlessly := by cases inverse <;> decide +kernel

/-- Under `?` the term of a loop is returned for the empty walk and for the loop. -/
theorem not_pathAnswered : ¬ ∀ (G : RdfModel) (f : String → Nat) (b : Binding) (path : PropertyPath)
    (built : IPath), visitPath path = .path built → ∀ (subject object : Paths.Id)
      (inputs : List (List Nat)),
      assignedIn inputs.flatten subject ≠ assignedIn inputs.flatten object →
      (planned subject built object inputs).Answered G f path b := by
  intro h
  have hanswered := h oneLoop (fun _ => 0) (fun _ => 0) (.element false (.iri "a") (some .optional))
    (.optional (.atom "a" false)) (by simp [visitPath, visit, modified, IPath.nullable]) (.objectId 0)
    (.varId 1) [] (by decide)
  have hright : (bound (.objectId 0) (.optional (.atom "a" false)) (.varId 1)
      ([] : List (List Nat)).flatten).builtPath.BuiltRight := builtRight_optional false
  rw [planned_eq_bound, bound_answered_iff
    (by simp [visitPath, visit, modified, IPath.nullable]) hright (by decide)] at hanswered
  apply hanswered
  refine ⟨rfl, by decide +kernel, [("a", false)], .inr rfl, by simp, ?_⟩
  apply Run.single
  exact List.mem_singleton.mpr rfl

end SparqlPathPlan

end Sparql
end MillenniumDB
