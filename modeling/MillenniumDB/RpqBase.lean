import MillenniumDB.RpqAutomaton

/-!
# The base automata of path expressions

`get_rpq_base_automaton` of the subclasses of `IPath`, and the language of the automaton
that they build together for an expression.
-/

namespace MillenniumDB

open Computability

namespace RPQAutomaton

/-- `PathAtom::get_rpq_base_automaton`. -/
def ofAtom (atom : String) (inverse : Bool) : RPQAutomaton :=
  addTransition { endStates := [1] } ⟨0, 1, atom, inverse, 0⟩

/-- The loop that leads every end state to the state `j` silently. -/
def linkEndStates (A : RPQAutomaton) (j : Nat) : RPQAutomaton :=
  A.endStates.foldl (fun M e => M.addEpsilonTransition e j) A

def withEndStates (A : RPQAutomaton) (ends : List Nat) : RPQAutomaton :=
  { A with endStates := ends }

/-- One round of the loop of `PathSequence::get_rpq_base_automaton`. -/
def appendChild (A B : RPQAutomaton) : RPQAutomaton :=
  ((A.renameAndMerge B).linkEndStates A.totalStates).withEndStates
    (B.endStates.map (· + A.totalStates))

/-- One round of the loop of `PathAlternatives::get_rpq_base_automaton`. -/
def addAlternative (A B : RPQAutomaton) : RPQAutomaton :=
  ((A.renameAndMerge B).addEpsilonTransition 0 A.totalStates).withEndStates
    ((B.endStates.map (· + A.totalStates)).foldl (fun ends e => setInsert e ends) A.endStates)

/-- `PathOptional::get_rpq_base_automaton`. -/
def makeOptional (A : RPQAutomaton) : RPQAutomaton :=
  A.withEndStates (setInsert 0 A.endStates)

/-- `PathKleeneStar::get_rpq_base_automaton`. -/
def makeStar (A : RPQAutomaton) : RPQAutomaton :=
  if A.totalStates = 2 then
    -- the code reads `from_to_connections[0][0]` without looking at the row
    match A.fromTo 0 with
    | t :: _ => (addTransition {} ⟨0, 0, t.type, t.inverse, 0⟩).withEndStates [0]
    | [] => withEndStates {} [0]
  else
    (A.linkEndStates 0).withEndStates (setInsert 0 A.endStates)

end RPQAutomaton

namespace IPath

mutual

/-- `get_rpq_base_automaton`.  For an empty sequence the code reads `sequence[0]` all the
same; the value given here for it is never used. -/
def baseAutomaton : IPath → RPQAutomaton
  | .atom a inverse => .ofAtom a inverse
  | .sequence ps =>
    match baseAutomata ps with
    | [] => {}
    | A :: As => As.foldl RPQAutomaton.appendChild A
  | .alternatives ps => (baseAutomata ps).foldl RPQAutomaton.addAlternative {}
  | .optional p => p.baseAutomaton.makeOptional
  | .kleeneStar p => p.baseAutomaton.makeStar

def baseAutomata : List IPath → List RPQAutomaton
  | [] => []
  | p :: ps => p.baseAutomaton :: baseAutomata ps

end

@[simp] theorem baseAutomata_eq_map (ps : List IPath) :
    baseAutomata ps = ps.map baseAutomaton := by
  induction ps with
  | nil => rfl
  | cons p ps ih => rw [baseAutomata, ih, List.map_cons]

end IPath

namespace RPQAutomaton

def StartFresh (A : RPQAutomaton) : Prop := ∀ i l, ¬ A.Edge i l 0

/-- The two tables of an automaton with `n` states. -/
structure Sized (A : RPQAutomaton) (n : Nat) : Prop where
  synced : A.Synced
  rows_eq : A.rows = n
  totalStates_eq : A.totalStates = n

/-- A base automaton with `n` states for the language `L`. -/
structure Base (A : RPQAutomaton) (n : Nat) (L : Language PathLabel) : Prop
    extends A.Sized n where
  last_used : ∃ i l j, A.Edge i l j ∧ (i + 1 = n ∨ j + 1 = n)
  end_lt : ∀ e ∈ A.endStates, e < n
  language_eq : A.language = L

variable {A B : RPQAutomaton} {m n : Nat} {L M : Language PathLabel}

theorem Sized.edge_lt (h : A.Sized n) {i j : Nat} {l : Option PathLabel} (he : A.Edge i l j) :
    i < n ∧ j < n :=
  h.rows_eq ▸ h.synced.edge_lt he

theorem Base.pos (h : A.Base n L) : 0 < n := by
  obtain ⟨i, l, j, -, hij⟩ := h.last_used
  omega

@[simp] theorem edge_withEndStates (ends : List Nat) : (A.withEndStates ends).Edge = A.Edge := rfl

@[simp] theorem endStates_withEndStates (ends : List Nat) :
    (A.withEndStates ends).endStates = ends := rfl

theorem Synced.withEndStates (hA : A.Synced) (ends : List Nat) :
    (A.withEndStates ends).Synced where
  fromState_eq := hA.fromState_eq
  toState_eq := hA.toState_eq
  mirror := hA.mirror
  nodup_fromTo := hA.nodup_fromTo
  nodup_toFrom := hA.nodup_toFrom
  lt_rows := hA.lt_rows
  toFrom_lt_rows := hA.toFrom_lt_rows

theorem Sized.withEndStates (h : A.Sized n) (ends : List Nat) : (A.withEndStates ends).Sized n :=
  ⟨h.synced.withEndStates ends, h.rows_eq, h.totalStates_eq⟩

theorem Sized.foldl_addTransition (h : A.Sized n) {ts : List Transition}
    (hts : ∀ t ∈ ts, t.fromState < n ∧ t.toState < n) : (ts.foldl addTransition A).Sized n := by
  have hrows := rows_foldl_addTransition h.rows_eq.le hts (.inl h.rows_eq)
  refine ⟨h.synced.foldl_addTransition ts, hrows, ?_⟩
  rw [totalStates_foldl_addTransition (.inr (h.totalStates_eq.trans h.rows_eq.symm)), hrows]

theorem linkEndStates_eq (A : RPQAutomaton) (j : Nat) :
    A.linkEndStates j =
      (A.endStates.map fun e => (⟨e, j, "", false, 0⟩ : Transition)).foldl addTransition A := by
  rw [List.foldl_map]
  rfl

theorem edge_linkEndStates {i j k : Nat} {l : Option PathLabel} :
    (A.linkEndStates k).Edge i l j ↔ A.Edge i l j ∨ (i ∈ A.endStates ∧ l = none ∧ j = k) := by
  rw [linkEndStates_eq, edge_foldl_addTransition]
  refine or_congr_right ?_
  constructor
  · rintro ⟨t, ht, rfl, rfl, rfl⟩
    obtain ⟨e, he, rfl⟩ := List.mem_map.mp ht
    exact ⟨he, rfl, rfl⟩
  · rintro ⟨he, rfl, rfl⟩
    exact ⟨_, List.mem_map_of_mem he, rfl, rfl, rfl⟩

theorem Sized.linkEndStates (h : A.Sized n) (hends : ∀ e ∈ A.endStates, e < n) {j : Nat}
    (hj : j < n) : (A.linkEndStates j).Sized n := by
  rw [linkEndStates_eq]
  apply h.foldl_addTransition
  intro t ht
  obtain ⟨e, he, rfl⟩ := List.mem_map.mp ht
  exact ⟨hends e he, hj⟩

@[simp] theorem endStates_renameAndMerge (A B : RPQAutomaton) :
    (A.renameAndMerge B).endStates = A.endStates := by
  rw [renameAndMerge_eq, endStates_foldl_addTransition]

/-- The edges of `B` between states renamed by the offset `n`. -/
def Shifted (B : RPQAutomaton) (n i : Nat) (l : Option PathLabel) (j : Nat) : Prop :=
  ∃ i' j', i = i' + n ∧ j = j' + n ∧ B.Edge i' l j'

theorem shifted_add {i j : Nat} {l : Option PathLabel} :
    B.Shifted n (i + n) l j ↔ ∃ j', j = j' + n ∧ B.Edge i l j' := by
  constructor
  · rintro ⟨i', j', hi, rfl, h⟩
    obtain rfl : i = i' := by omega
    exact ⟨j', rfl, h⟩
  · rintro ⟨j', rfl, h⟩
    exact ⟨i, j', rfl, rfl, h⟩

theorem shifted_not_lt {i j : Nat} {l : Option PathLabel} (h : B.Shifted n i l j) :
    ¬ i < n ∧ ¬ j < n := by
  obtain ⟨i', j', rfl, rfl, -⟩ := h
  omega

theorem accepts_shifted (hB : B.Base m M) (n : Nat) :
    Accepts (B.Shifted n) (· ∈ B.endStates.map (· + n)) n = M := by
  have h := accepts_embed (f := (· + n)) (E := B.Shifted n) (C := B.Edge)
    (F := (· ∈ B.endStates.map (· + n))) (H := (· ∈ B.endStates))
    (fun i l q => shifted_add) (fun j => by simp) 0
  rw [Nat.zero_add] at h
  rw [h]
  exact hB.language_eq

theorem Base.sized_renameAndMerge (hB : B.Base m M) (hA : A.Synced) (hrows : A.rows ≤ n)
    (hn : A.totalStates = n) : (A.renameAndMerge B).Sized (n + m) := by
  obtain ⟨i, l, j, ⟨u, hu, hj, -⟩, hlast⟩ := hB.last_used
  have hi := hB.synced.fromState_eq hu
  have hmem : u ∈ B.transitions := hB.synced.mem_transitions.mpr (hi ▸ hu)
  have hrows : (A.renameAndMerge B).rows = n + m := by
    rw [renameAndMerge_eq]
    apply rows_foldl_addTransition
    · omega
    · intro v hv
      obtain ⟨t, ht, rfl⟩ := List.mem_map.mp hv
      have hlt := hB.synced.lt_rows (hB.synced.mem_transitions.mp ht)
      rw [hB.rows_eq] at hlt
      simp only [Transition.rename]
      omega
    · refine .inr ⟨u.rename A.totalStates, List.mem_map_of_mem hmem, ?_⟩
      simp only [Transition.rename]
      omega
  refine ⟨hA.renameAndMerge B, hrows, ?_⟩
  rw [← hrows, renameAndMerge_eq]
  apply totalStates_foldl_addTransition
  exact .inl (List.ne_nil_of_mem (List.mem_map_of_mem hmem))

theorem edge_ofAtom {a : String} {inverse : Bool} {i j : Nat} {l : Option PathLabel}
    (h : (ofAtom a inverse).Edge i l j) :
    i = 0 ∧ l = (⟨0, 1, a, inverse, 0⟩ : Transition).label ∧ j = 1 := by
  rcases edge_addTransition.mp h with ⟨t, ht, -⟩ | h
  · exact absurd ht List.not_mem_nil
  · exact h

theorem base_ofAtom {a : String} (ha : a ≠ "") (inverse : Bool) :
    (ofAtom a inverse).Base 2 {[(a, inverse)]} := by
  have hlabel : (⟨0, 1, a, inverse, 0⟩ : Transition).label = some (a, inverse) := by
    simp [Transition.label, ha]
  have hedge : (ofAtom a inverse).Edge 0 (some (a, inverse)) 1 :=
    edge_addTransition.mpr (.inr ⟨rfl, hlabel.symm, rfl⟩)
  have hends : (ofAtom a inverse).endStates = [1] := endStates_addTransition
  constructor
  · exact ⟨(Synced.empty.withEndStates [1]).addTransition trivial, by simp [ofAtom], by simp [ofAtom]⟩
  · exact ⟨0, _, 1, hedge, .inr rfl⟩
  · simp [hends]
  · unfold language
    rw [hends]
    apply le_antisymm
    · rintro w ⟨q, hq, h⟩
      obtain rfl : q = 1 := by simpa using hq
      cases h with
      | eps he => exact absurd (edge_ofAtom he).2.1 (by simp [hlabel])
      | sym hb h =>
        obtain ⟨-, hl, rfl⟩ := edge_ofAtom hb
        obtain rfl := Option.some.inj (hl.trans hlabel)
        cases h with
        | nil => rfl
        | eps he => exact absurd (edge_ofAtom he).1 (by omega)
        | sym hc => exact absurd (edge_ofAtom hc).1 (by omega)
    · rintro w rfl
      exact ⟨1, by simp, .sym hedge (.nil 1)⟩

theorem startFresh_ofAtom (a : String) (inverse : Bool) : (ofAtom a inverse).StartFresh :=
  fun _ _ h => absurd (edge_ofAtom h).2.2 (by omega)

theorem edge_appendChild (hB : B.Synced) {i j : Nat} {l : Option PathLabel} :
    (A.appendChild B).Edge i l j ↔ A.Edge i l j ∨ B.Shifted A.totalStates i l j ∨
      (i ∈ A.endStates ∧ l = none ∧ j = A.totalStates) := by
  unfold appendChild
  rw [edge_withEndStates, edge_linkEndStates, edge_renameAndMerge hB, endStates_renameAndMerge,
    or_assoc]
  rfl

theorem Base.appendChild (hA : A.Base n L) (hB : B.Base m M) :
    (A.appendChild B).Base (n + m) (L * M) := by
  have hm := hB.pos
  have htotal := hA.totalStates_eq
  have hmerged := hB.sized_renameAndMerge hA.synced hA.rows_eq.le htotal
  have hedge : (A.appendChild B).Edge = fun i l j => A.Edge i l j ∨ B.Shifted n i l j ∨
      (i ∈ A.endStates ∧ l = none ∧ j = n) := by
    funext i l j
    rw [← htotal]
    exact propext (edge_appendChild hB.synced)
  constructor
  · refine (hmerged.linkEndStates (fun e he => ?_) (by omega)).withEndStates _
    have := hA.end_lt e (by simpa using he)
    omega
  · obtain ⟨i, l, j, he, hlast⟩ := hB.last_used
    refine ⟨i + n, l, j + n, ?_, by omega⟩
    rw [hedge]
    exact .inr (.inl ⟨i, j, rfl, rfl, he⟩)
  · intro e' he'
    obtain ⟨e, he, rfl⟩ := List.mem_map.mp he'
    have := hB.end_lt e he
    omega
  · unfold language
    have hends : (A.appendChild B).endStates = B.endStates.map (· + n) := by
      rw [← htotal]
      rfl
    rw [hedge, hends, ← hA.language_eq, ← accepts_shifted hB n]
    refine accepts_sequence (P := (· < n)) (fun _ _ _ => hA.edge_lt)
      (fun _ _ _ => shifted_not_lt) (fun e he => hA.end_lt e he) (fun e' he' => ?_) (by omega)
      hA.pos
    obtain ⟨e, -, rfl⟩ := List.mem_map.mp he'
    omega

theorem StartFresh.appendChild (hA : A.Base n L) (hB : B.Base m M) (h : A.StartFresh) :
    (A.appendChild B).StartFresh := by
  have hn := hA.pos
  intro i l he
  rcases (edge_appendChild hB.synced).mp he with he | he | ⟨-, -, he⟩
  · exact h i l he
  · have := (shifted_not_lt he).2
    have := hA.totalStates_eq
    omega
  · have := hA.totalStates_eq
    omega

theorem edge_addAlternative (hB : B.Synced) {i j : Nat} {l : Option PathLabel} :
    (A.addAlternative B).Edge i l j ↔ A.Edge i l j ∨ B.Shifted A.totalStates i l j ∨
      (i = 0 ∧ l = none ∧ j = A.totalStates) := by
  unfold addAlternative addEpsilonTransition
  rw [edge_withEndStates, edge_addTransition, edge_renameAndMerge hB, or_assoc]
  rfl

/-- What the loop over the alternatives keeps, also before its first round. -/
structure Branching (A : RPQAutomaton) (n : Nat) (L : Language PathLabel) : Prop where
  synced : A.Synced
  rows_le : A.rows ≤ n
  totalStates_eq : A.totalStates = n
  pos : 0 < n
  end_lt : ∀ e ∈ A.endStates, e < n
  startFresh : A.StartFresh
  language_eq : A.language = L

theorem branching_empty : Branching {} 1 0 where
  synced := .empty
  rows_le := Nat.zero_le 1
  totalStates_eq := rfl
  pos := Nat.one_pos
  end_lt _ h := absurd h List.not_mem_nil
  startFresh := by
    rintro i l ⟨t, ht, -⟩
    exact absurd ht List.not_mem_nil
  language_eq := by
    apply le_antisymm _ bot_le
    rintro w ⟨q, hq, -⟩
    exact absurd hq List.not_mem_nil

theorem Branching.edge_lt (h : A.Branching n L) {i j : Nat} {l : Option PathLabel}
    (he : A.Edge i l j) : i < n ∧ j < n := by
  have hlt := h.synced.edge_lt he
  have hle := h.rows_le
  omega

theorem Branching.addAlternative (hA : A.Branching n L) (hB : B.Base m M) :
    (A.addAlternative B).Base (n + m) (L + M) ∧ (A.addAlternative B).StartFresh := by
  have hn := hA.pos
  have hm := hB.pos
  have htotal := hA.totalStates_eq
  have hmerged := hB.sized_renameAndMerge hA.synced hA.rows_le htotal
  have hedge : (A.addAlternative B).Edge = fun i l j => A.Edge i l j ∨ B.Shifted n i l j ∨
      (i = 0 ∧ l = none ∧ j = n) := by
    funext i l j
    rw [← htotal]
    exact propext (edge_addAlternative hB.synced)
  have hends : ∀ e, e ∈ (A.addAlternative B).endStates ↔
      e ∈ A.endStates ∨ e ∈ B.endStates.map (· + n) := by
    intro e
    rw [← htotal]
    exact mem_foldl_setInsert
  refine ⟨⟨?_, ?_, ?_, ?_⟩, ?_⟩
  · have hlink : ∀ t ∈ [(⟨0, A.totalStates, "", false, 0⟩ : Transition)],
        t.fromState < n + m ∧ t.toState < n + m := by
      intro t ht
      rw [List.mem_singleton.mp ht, htotal]
      simp only
      omega
    exact Sized.withEndStates (Sized.foldl_addTransition hmerged hlink) _
  · obtain ⟨i, l, j, he, hlast⟩ := hB.last_used
    refine ⟨i + n, l, j + n, ?_, by omega⟩
    rw [hedge]
    exact .inr (.inl ⟨i, j, rfl, rfl, he⟩)
  · intro e' he'
    rcases (hends e').mp he' with he | he
    · have := hA.end_lt e' he
      omega
    · obtain ⟨e, hmem, rfl⟩ := List.mem_map.mp he
      have := hB.end_lt e hmem
      omega
  · unfold language
    simp only [hends]
    rw [hedge, ← hA.language_eq, ← accepts_shifted hB n]
    refine accepts_branch (P := (· < n)) (fun _ _ _ => hA.edge_lt)
      (fun _ _ _ => shifted_not_lt) (fun e he => hA.end_lt e he) (fun e' he' => ?_) (by omega)
      hA.pos hA.startFresh
    obtain ⟨e, -, rfl⟩ := List.mem_map.mp he'
    omega
  · intro i l he
    rw [hedge] at he
    rcases he with he | he | ⟨-, -, he⟩
    · exact hA.startFresh i l he
    · have := (shifted_not_lt he).2
      omega
    · omega

theorem Base.branching (h : A.Base n L) (hfresh : A.StartFresh) : A.Branching n L :=
  ⟨h.synced, h.rows_eq.le, h.totalStates_eq, h.pos, h.end_lt, hfresh, h.language_eq⟩

def loops (A : RPQAutomaton) : Language PathLabel := Accepts A.Edge (· = 0) 0

theorem StartFresh.loops_eq (h : A.StartFresh) : A.loops = 1 := loops_eq_one h

theorem loops_mul_le : A.loops * A.language ≤ A.language := accepts_mul_le

theorem Base.makeOptional (h : A.Base n L) : A.makeOptional.Base n (L + A.loops) where
  toSized := h.toSized.withEndStates _
  last_used := h.last_used
  end_lt e he := by
    rcases mem_setInsert.mp he with rfl | he
    · exact h.pos
    · exact h.end_lt e he
  language_eq := by
    rw [← h.language_eq, language, language, loops, ← accepts_or]
    congr 1
    funext e
    exact propext (mem_setInsert.trans or_comm)

theorem Base.makeStar (h : A.Base n L) (hn : n ≠ 2) :
    A.makeStar.Base n (L∗ * (L + A.loops)) := by
  have heq : A.makeStar = (A.linkEndStates 0).withEndStates (setInsert 0 A.endStates) := by
    unfold RPQAutomaton.makeStar
    rw [if_neg (h.totalStates_eq ▸ hn)]
  have hedge : A.makeStar.Edge = loopBack A.Edge (· ∈ A.endStates) 0 := by
    funext i l j
    rw [heq]
    exact propext edge_linkEndStates
  constructor
  · rw [heq]
    exact (h.toSized.linkEndStates h.end_lt h.pos).withEndStates _
  · obtain ⟨i, l, j, he, hlast⟩ := h.last_used
    refine ⟨i, l, j, ?_, hlast⟩
    rw [hedge]
    exact .inl he
  · intro e he
    rw [heq, endStates_withEndStates] at he
    rcases mem_setInsert.mp he with rfl | he
    · exact h.pos
    · exact h.end_lt e he
  · rw [language, hedge, ← h.language_eq, language, loops, ← accepts_loopBack]
    congr 1
    funext e
    rw [heq]
    exact propext (mem_setInsert.trans or_comm)

theorem base_makeStar_two {a : String} {inverse : Bool} (ha : a ≠ "") (htotal : A.totalStates = 2)
    (hrow : A.fromTo 0 = [⟨0, 1, a, inverse, 0⟩]) :
    A.makeStar.Base 1 {[(a, inverse)]}∗ := by
  have heq : A.makeStar = (addTransition {} ⟨0, 0, a, inverse, 0⟩).withEndStates [0] := by
    unfold makeStar
    rw [if_pos htotal, hrow]
  have hlabel : (⟨0, 0, a, inverse, 0⟩ : Transition).label = some (a, inverse) := by
    simp [Transition.label, ha]
  have hedge : ∀ i l j, A.makeStar.Edge i l j ↔ i = 0 ∧ l = some (a, inverse) ∧ j = 0 := by
    intro i l j
    rw [heq, edge_withEndStates, edge_addTransition, hlabel]
    refine or_iff_right ?_
    rintro ⟨t, ht, -⟩
    exact absurd ht List.not_mem_nil
  have hends : A.makeStar.endStates = [0] := by rw [heq, endStates_withEndStates]
  constructor
  · rw [heq]
    exact Sized.withEndStates ⟨Synced.empty.addTransition trivial, by simp, by simp⟩ _
  · exact ⟨0, _, 0, (hedge _ _ _).mpr ⟨rfl, rfl, rfl⟩, .inr rfl⟩
  · simp [hends]
  · have hloops : A.makeStar.language = A.makeStar.loops := by
      unfold language loops
      simp [hends]
    rw [hloops]
    apply le_antisymm
    · rintro w ⟨q, -, h⟩
      generalize 0 = p at h
      induction h with
      | nil => exact Language.nil_mem_kstar _
      | eps he => exact absurd ((hedge _ _ _).mp he).2.1 (by simp)
      | sym hb _ ih =>
        have hle : ({[(a, inverse)]} : Language PathLabel) * {[(a, inverse)]}∗ ≤
          {[(a, inverse)]}∗ := mul_kstar_le_kstar
        obtain ⟨-, hl, -⟩ := (hedge _ _ _).mp hb
        obtain rfl := Option.some.inj hl
        exact hle ⟨_, rfl, _, ih, rfl⟩
    · apply kstar_le_of_mul_le_right one_le_loops
      rintro _ ⟨_, rfl, v, ⟨_, rfl, hv⟩, rfl⟩
      exact ⟨_, rfl, .sym ((hedge 0 _ 0).mpr ⟨rfl, rfl, rfl⟩) hv⟩

end RPQAutomaton

namespace IPath

open RPQAutomaton

theorem base_foldl_appendChild {A : RPQAutomaton} {n : Nat} {L : Language PathLabel}
    {ps : List IPath} (hps : ∀ p ∈ ps, p.baseAutomaton.Base p.stateCount p.words)
    (hA : A.Base n L) :
    ((ps.map baseAutomaton).foldl appendChild A).Base (n + stateCounts ps) (L * productWords ps) ∧
      (A.StartFresh → ((ps.map baseAutomaton).foldl appendChild A).StartFresh) := by
  induction ps generalizing A n L with
  | nil =>
    rw [stateCounts, productWords, mul_one, add_zero]
    exact ⟨hA, id⟩
  | cons p ps ih =>
    have hp := hps p (by simp)
    obtain ⟨hbase, hfresh⟩ := ih (fun q hq => hps q (by simp [hq])) (hA.appendChild hp)
    rw [stateCounts, productWords, ← add_assoc, ← mul_assoc]
    exact ⟨hbase, fun h => hfresh (h.appendChild hA hp)⟩

theorem base_foldl_addAlternative {A : RPQAutomaton} {n : Nat} {L : Language PathLabel}
    {ps : List IPath} (hps : ∀ p ∈ ps, p.baseAutomaton.Base p.stateCount p.words)
    (hA : A.Base n L) (hfresh : A.StartFresh) :
    ((ps.map baseAutomaton).foldl addAlternative A).Base (n + stateCounts ps)
        (L + unionWords ps) ∧
      ((ps.map baseAutomaton).foldl addAlternative A).StartFresh := by
  induction ps generalizing A n L with
  | nil =>
    rw [stateCounts, unionWords, add_zero, add_zero]
    exact ⟨hA, hfresh⟩
  | cons p ps ih =>
    obtain ⟨hB, hBfresh⟩ := (hA.branching hfresh).addAlternative (hps p (by simp))
    rw [stateCounts, unionWords, ← add_assoc, ← add_assoc]
    exact ih (fun q hq => hps q (by simp [hq])) hB hBfresh

theorem singleEdge_baseAutomaton (p : IPath) : p.isSingleEdge → p.StartsFresh →
    ∃ a inverse, a ≠ "" ∧ p.baseAutomaton.fromTo 0 = [⟨0, 1, a, inverse, 0⟩] ∧
      p.words∗ = {[(a, inverse)]}∗ := by
  induction p using induct with
  | atom a inverse =>
    intro _ h
    exact ⟨a, inverse, h, rfl, rfl⟩
  | sequence ps ih =>
    intro hedge h
    match ps, hedge with
    | [p], hedge =>
      rw [StartsFresh, AllStartFresh] at h
      obtain ⟨a, inverse, ha, hrow, hwords⟩ := ih p (by simp) hedge h.2.1
      refine ⟨a, inverse, ha, hrow, ?_⟩
      rw [words, productWords, productWords, mul_one, hwords]
  | alternatives ps => exact fun h => absurd h (by simp [isSingleEdge])
  | optional p ih =>
    intro hedge h
    rw [StartsFresh] at h
    obtain ⟨a, inverse, ha, hrow, hwords⟩ := ih hedge h.1
    refine ⟨a, inverse, ha, hrow, ?_⟩
    rw [← hwords, words]
    apply le_antisymm
    · exact kstar_le_of_le_kstar (sup_le one_le_kstar le_kstar)
    · exact kstar_mono le_sup_right
  | kleeneStar p => exact fun h => absurd h (by simp [isSingleEdge])

theorem loops_le {p : IPath} {n : Nat} (hp : p.baseAutomaton.Base n p.words)
    (hfresh : p.startEntered = false → p.baseAutomaton.StartFresh)
    (h : p.startEntered → p.nullable) : p.baseAutomaton.loops ≤ 1 + p.words := by
  by_cases hentered : p.startEntered
  · have hone : 1 ≤ p.words := one_le_words p (h hentered)
    calc p.baseAutomaton.loops = p.baseAutomaton.loops * 1 := (mul_one _).symm
      _ ≤ p.baseAutomaton.loops * p.baseAutomaton.language :=
        mul_le_mul' le_rfl (hp.language_eq ▸ hone)
      _ ≤ p.baseAutomaton.language := loops_mul_le
      _ = p.words := hp.language_eq
      _ ≤ 1 + p.words := le_sup_right
  · rw [(hfresh (by simpa using hentered)).loops_eq]
    exact le_sup_left

theorem base_baseAutomaton (p : IPath) : p.StartsFresh →
    p.baseAutomaton.Base p.stateCount p.words ∧
      (p.startEntered = false → p.baseAutomaton.StartFresh) := by
  induction p using induct with
  | atom a inverse =>
    intro h
    exact ⟨base_ofAtom h inverse, fun _ => startFresh_ofAtom a inverse⟩
  | sequence ps ih =>
    intro h
    rw [StartsFresh, allStartFresh_iff] at h
    obtain ⟨hne, hall⟩ := h
    match ps, hne with
    | p :: ps, _ =>
      obtain ⟨hp, hfresh⟩ := ih p (by simp) (hall p (by simp))
      have hps : ∀ q ∈ ps, q.baseAutomaton.Base q.stateCount q.words := fun q hq =>
        (ih q (by simp [hq]) (hall q (by simp [hq]))).1
      obtain ⟨hbase, hfold⟩ := base_foldl_appendChild hps hp
      rw [baseAutomaton, baseAutomata, baseAutomata_eq_map, stateCount, stateCounts, words,
        productWords, startEntered]
      exact ⟨hbase, fun h => hfold (hfresh h)⟩
  | alternatives ps ih =>
    intro h
    rw [StartsFresh, allStartFresh_iff] at h
    obtain ⟨hne, hall⟩ := h
    match ps, hne with
    | p :: ps, _ =>
      have hp := (ih p (by simp) (hall p (by simp))).1
      have hps : ∀ q ∈ ps, q.baseAutomaton.Base q.stateCount q.words := fun q hq =>
        (ih q (by simp [hq]) (hall q (by simp [hq]))).1
      obtain ⟨hfirst, hfirstFresh⟩ := branching_empty.addAlternative hp
      obtain ⟨hbase, hfresh⟩ := base_foldl_addAlternative hps hfirst hfirstFresh
      rw [baseAutomaton, baseAutomata, baseAutomata_eq_map, stateCount, stateCounts, words,
        unionWords, ← add_assoc]
      rw [zero_add] at hbase
      exact ⟨hbase, fun _ => hfresh⟩
  | optional p ih =>
    intro h
    rw [StartsFresh] at h
    obtain ⟨hp, hfresh⟩ := ih h.1
    rw [baseAutomaton, stateCount, words, startEntered]
    refine ⟨?_, hfresh⟩
    have hloops := loops_le hp hfresh h.2
    have hwords : p.words + p.baseAutomaton.loops = 1 + p.words :=
      le_antisymm (sup_le le_sup_right hloops) (sup_le (one_le_loops.trans le_sup_right) le_sup_left)
    exact hwords ▸ hp.makeOptional
  | kleeneStar p ih =>
    intro h
    rw [StartsFresh] at h
    obtain ⟨hp, hfresh⟩ := ih h.1
    rw [baseAutomaton, stateCount, words]
    refine ⟨?_, fun h => absurd h (by simp [startEntered])⟩
    split_ifs with htwo
    · obtain ⟨a, inverse, ha, hrow, hwords⟩ := singleEdge_baseAutomaton p (h.2.2 htwo) h.1
      rw [hwords]
      exact base_makeStar_two ha (hp.totalStates_eq.trans htwo) hrow
    · have hloops := loops_le hp hfresh h.2.1
      have hstar : p.words∗ * (p.words + p.baseAutomaton.loops) = p.words∗ := by
        apply le_antisymm
        · calc p.words∗ * (p.words + p.baseAutomaton.loops) ≤ p.words∗ * p.words∗ :=
              mul_le_mul' le_rfl (sup_le le_kstar (hloops.trans (sup_le one_le_kstar le_kstar)))
            _ = p.words∗ := kstar_mul_kstar _
        · calc p.words∗ = p.words∗ * 1 := (mul_one _).symm
            _ ≤ p.words∗ * (p.words + p.baseAutomaton.loops) :=
              mul_le_mul' le_rfl (one_le_loops.trans le_sup_right)
      exact hstar ▸ hp.makeStar htwo

end IPath
end MillenniumDB
