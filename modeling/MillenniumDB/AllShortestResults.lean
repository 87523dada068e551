import Mathlib.Algebra.Order.BigOperators.Group.Finset
import Mathlib.Algebra.Order.BigOperators.Group.List
import MillenniumDB.AllShortestWalks

/-!
# When all shortest walks are returned once

`AllShortest::BFSEnum` is compared with the shortest accepted walks of the graph.  A walk can
be produced in several ways, by parallel edges or by several runs of the automaton, and every
way is returned; and an end node next to the start is enumerated from its first transition
again whenever a transition is added to it.
-/

namespace MillenniumDB
namespace Paths
namespace AllShortest

/-- A shortest accepted walk from `s` to `m`: the type, the direction and the node of each of
its steps. -/
structure ShortestWalkTo (G : QuadModel) (A : RPQAutomaton) (s m : Nat)
    (W : List (EdgeLabel × Nat)) : Prop where
  source_mem : s ∈ G.nodes
  along : WalksAlong G s W m
  accepted : A.acceptsIds (W.map (·.1))
  shortest : ∀ w, A.acceptsIds w → Run G.Step s w m → W.length ≤ w.length

/-- A walk of the product that the search can take and that is shortest to its end, a final
state. -/
structure Minimal (G : QuadModel) (A : RPQAutomaton) (s : Nat) (p : ProductPath) : Prop where
  ne_nil : p ≠ []
  walk : 0 < multiplicity (openSteps G.provider A s) (0, s) p
  final : (endOf (0, s) p).1 = A.finalState
  fresh : endOf (0, s) p ∉ marked A s
  shortest : ∀ w, Run (OpenStep G A s) (0, s) w (endOf (0, s) p) → p.length ≤ w.length

/-- Every shortest accepted walk has a run that the search can take. -/
def Unhindered (G : QuadModel) (A : RPQAutomaton) (s : Nat) : Prop :=
  ∀ m W, ShortestWalkTo G A s m W → W ≠ [] → ∃ p, Minimal G A s p ∧ walkOf p = W

/-- No shortest walk can be produced in two ways, by parallel edges, by two transitions or by
two runs of the automaton, and no two walks of one step lead to one end. -/
structure Unambiguous (G : QuadModel) (A : RPQAutomaton) (s : Nat) : Prop where
  single : ∀ p, Minimal G A s p → multiplicity (openSteps G.provider A s) (0, s) p = 1
  run : ∀ p p', Minimal G A s p → Minimal G A s p' → walkOf p = walkOf p' → p = p'
  first : ∀ x x', Minimal G A s [x] → Minimal G A s [x'] → x.2 = x'.2 → x = x'

/-- More rounds than a call of `next` needs. -/
def searchBound (G : QuadModel) (A : RPQAutomaton) : Nat :=
  2 * (A.rows * G.nodes.length) + 1 + ∑ v ∈ vertices G A, (productSteps G.provider A v).length

/-- `BFSEnum` returns every shortest accepted walk once, and nothing else. -/
def ReturnsShortestWalks (G : QuadModel) (A : RPQAutomaton) (s : Nat) : Prop :=
  ∀ fuel, searchBound G A ≤ fuel → ∃ results,
    Yields (BFSEnum.next G A fuel) (.start s) results ∧ results.Nodup ∧
      ∀ m W, (m, W) ∈ results ↔ ShortestWalkTo G A s m W

section

variable {G : QuadModel} {A : RPQAutomaton} {s m n : Nat} {D : Nat × Nat → Nat}
  {found : List SearchState} {u v : Nat × Nat} {p q : ProductPath} {x : EdgeLabel × Nat × Nat}
  {W : List (EdgeLabel × Nat)}

theorem minimal_iff (hl : Levels G A s D found) : Minimal G A s p ↔
    p ≠ [] ∧ 0 < multiplicity (openSteps G.provider A s) (0, s) p ∧
      (endOf (0, s) p).1 = A.finalState ∧ endOf (0, s) p ∈ keys found ∧
      D (endOf (0, s) p) = p.length := by
  constructor
  · intro h
    have hrun := run_of_multiplicity h.walk
    obtain ⟨hmem, hle⟩ := hl.complete _ _ hrun h.fresh
    rw [List.length_map] at hle
    obtain ⟨r, hr, hkey⟩ := hmem
    obtain ⟨w, hw, hlength⟩ := hl.walk r hr
    rw [hkey] at hw hlength
    have hshort := h.shortest w hw
    exact ⟨h.ne_nil, h.walk, h.final, ⟨r, hr, hkey⟩, by omega⟩
  · rintro ⟨hne, hwalk, hfinal, ⟨r, hr, hkey⟩, hD⟩
    have hfresh : endOf (0, s) p ∉ marked A s := hkey ▸ hl.fresh r hr
    exact ⟨hne, hwalk, hfinal, hfresh, fun w hw => hD ▸ (hl.complete w _ hw hfresh).2⟩

abbrev foundPaths (G : QuadModel) (A : RPQAutomaton) (D : Nat × Nat → Nat)
    (found : List SearchState) : List ProductPath :=
  outputs D A.finalState [] (expansions G.provider A D found)

theorem mem_keys_of_level (hl : Levels G A s D found)
    (hp : 0 < multiplicity (openSteps G.provider A s) (0, s) p) (hD : D (endOf (0, s) p) ≠ 0) :
    endOf (0, s) p ∈ keys found :=
  (hl.complete _ _ (run_of_multiplicity hp) fun hm => hD (hl.unreached _ hm)).1

/-- A walk of two or more steps is returned as often as its steps can be chosen when it is
minimal, and otherwise not at all. -/
theorem count_outputs_concat [Decidable (Minimal G A s (q ++ [x]))] (hl : Levels G A s D found)
    (hq : q ≠ []) : (foundPaths G A D found).count (q ++ [x]) =
      if Minimal G A s (q ++ [x]) then multiplicity (openSteps G.provider A s) (0, s) (q ++ [x])
      else 0 := by
  have hcount := count_outputs hl (List.nil_append _) hq x
  rw [hcount]
  by_cases hmin : Minimal G A s (q ++ [x])
  · obtain ⟨-, hwalk, hfinal, hmem, hD⟩ := (minimal_iff hl).mp hmin
    rw [endOf_concat] at hfinal hmem hD
    rw [List.length_append, List.length_singleton] at hD
    rw [multiplicity_concat] at hwalk
    have hx := List.count_pos_iff.mp (Nat.pos_of_mul_pos_right hwalk)
    have hlevel := (level_of_step hl (Nat.pos_of_mul_pos_left hwalk) hx hmem hD).2
    rw [if_pos ⟨hfinal, hlevel⟩, if_pos hmin, count_event hl q x hmem hD]
  · rw [if_neg hmin]
    by_cases hcond : x.2.1 = A.finalState ∧ D (endOf (0, s) q) = q.length
    · rw [if_pos hcond]
      by_contra hne
      have hpos := Nat.pos_of_ne_zero hne
      have hevent := List.count_pos_iff.mp (Nat.pos_of_mul_pos_right hpos)
      obtain ⟨hmem, hlevel, hx⟩ := (mem_expansions hl.nodup).mp hevent
      have hwalk : 0 < multiplicity (openSteps G.provider A s) (0, s) (q ++ [x]) := by
        rw [multiplicity_concat, openSteps_of_mem_keys hl hmem]
        exact Nat.mul_pos (List.count_pos_iff.mpr hx) (Nat.pos_of_mul_pos_left hpos)
      have hD : D x.2 = q.length + 1 := by rw [hlevel, hcond.2]
      have hkeys := mem_keys_of_level hl hwalk (by rw [endOf_concat]; omega)
      refine hmin ((minimal_iff hl).mpr ⟨by simp, hwalk, ?_, hkeys, ?_⟩)
      · rw [endOf_concat]
        exact hcond.1
      · rw [endOf_concat, hD, List.length_append, List.length_singleton]
    · rw [if_neg hcond]

def firstEntry (s : Nat) (x : EdgeLabel × Nat × Nat) : IterTransition := ⟨(0, s), x.1.2, x.1.1⟩

theorem count_firstEntry (hl : Levels G A s D found) (hD : D x.2 = 1) :
    (entries (expansions G.provider A D found) x.2).count (firstEntry s x) =
      multiplicity (openSteps G.provider A s) (0, s) [x] := by
  have hwalk : Run (OpenStep G A s) (0, s) [] (0, s) := .nil _
  obtain ⟨hroot, hle⟩ := hl.complete [] (0, s) hwalk root_not_marked
  have hzero : D (0, s) = 0 := Nat.le_zero.mp hle
  rw [count_entries, count_expansions hl.nodup]
  show (if (0, s) ∈ found.map SearchState.key ∧ D x.2 = D (0, s) + 1 then
    (productSteps G.provider A (0, s)).count x else 0) = _
  rw [if_pos ⟨mem_keys_iff.mp hroot, by omega⟩, multiplicity, multiplicity, Nat.mul_one,
    openSteps_of_not_mem root_not_marked]

theorem minimal_single_iff (hl : Levels G A s D found) : Minimal G A s [x] ↔
    (x.2.1 = A.finalState ∧ D x.2 = 1) ∧
      firstEntry s x ∈ entries (expansions G.provider A D found) x.2 := by
  rw [minimal_iff hl]
  constructor
  · rintro ⟨-, hwalk, hfinal, -, hD⟩
    have hone : D x.2 = 1 := hD
    rw [← count_firstEntry hl hone] at hwalk
    exact ⟨⟨hfinal, hone⟩, List.count_pos_iff.mp hwalk⟩
  · rintro ⟨⟨hfinal, hone⟩, he⟩
    have hwalk : 0 < multiplicity (openSteps G.provider A s) (0, s) [x] := by
      rw [← count_firstEntry hl hone]
      exact List.count_pos_iff.mpr he
    refine ⟨by simp, hwalk, hfinal, mem_keys_of_level hl hwalk ?_, hone⟩
    show D x.2 ≠ 0
    omega

theorem count_outputs_first (hl : Levels G A s D found) :
    (foundPaths G A D found).count [x] = if x.2.1 = A.finalState ∧ D x.2 = 1 then
      returned (firstEntry s x) (entries (expansions G.provider A D found) x.2) else 0 := by
  have hcount := count_outputs_single hl (List.nil_append _) x
  rw [hcount]
  simp [entries, firstEntry]

theorem nil_not_mem_enumerated {h : Iters} : [] ∉ enumerated h n v := by
  unfold enumerated
  split_ifs
  · simp [pathsTo]
  · cases (h v).transitions.getLast? <;> simp

theorem nil_not_mem_outputs (past evs : List Event) :
    [] ∉ outputs D A.finalState past evs := by
  induction evs generalizing past with
  | nil => simp [outputs]
  | cons ev evs ih =>
    simp only [outputs, List.mem_append, not_or]
    refine ⟨fun hmem => ?_, ih _⟩
    split_ifs at hmem with hfinal
    · exact nil_not_mem_enumerated hmem
    · exact absurd hmem List.not_mem_nil

theorem mem_outputs_iff (hl : Levels G A s D found) :
    p ∈ foundPaths G A D found ↔ Minimal G A s p := by
  classical
  rcases List.eq_nil_or_concat p with rfl | ⟨q, x, rfl⟩
  · exact ⟨fun h => absurd h (nil_not_mem_outputs _ _), fun h => absurd rfl h.ne_nil⟩
  · rw [List.concat_eq_append, ← List.count_pos_iff]
    by_cases hq : q = []
    · subst hq
      rw [List.nil_append, count_outputs_first hl, minimal_single_iff hl]
      by_cases hcond : x.2.1 = A.finalState ∧ D x.2 = 1
      · rw [if_pos hcond, returned_pos_iff]
        exact ⟨fun h => ⟨hcond, h⟩, fun h => h.2⟩
      · rw [if_neg hcond]
        exact ⟨fun h => absurd h (Nat.lt_irrefl 0), fun h => absurd h.1 hcond⟩
    · rw [count_outputs_concat hl hq]
      by_cases hmin : Minimal G A s (q ++ [x])
      · rw [if_pos hmin]
        exact ⟨fun _ => hmin, fun h => h.walk⟩
      · rw [if_neg hmin]
        exact ⟨fun h => absurd h (Nat.lt_irrefl 0), fun h => absurd h hmin⟩

theorem minimal_of_entry (hl : Levels G A s D found) {e : IterTransition}
    (hv : v.1 = A.finalState ∧ D v = 1)
    (he : e ∈ entries (expansions G.provider A D found) v) :
    firstEntry s (e.label, v) = e ∧ Minimal G A s [(e.label, v)] := by
  have heq : firstEntry s (e.label, v) = e := by
    obtain ⟨previous, inverse, typeId⟩ := e
    obtain rfl : previous = (0, s) := previous_of_entries hl hv.2 he
    rfl
  exact ⟨heq, (minimal_single_iff hl).mpr ⟨hv, heq ▸ he⟩⟩

def FirstOnce (G : QuadModel) (A : RPQAutomaton) (D : Nat × Nat → Nat) (found : List SearchState) :
    Prop :=
  ∀ v : Nat × Nat, v.1 = A.finalState ∧ D v = 1 →
    (entries (expansions G.provider A D found) v).length ≤ 1

theorem firstOnce_iff (hl : Levels G A s D found) : FirstOnce G A D found ↔
    (∀ x, Minimal G A s [x] → multiplicity (openSteps G.provider A s) (0, s) [x] = 1) ∧
      ∀ x x', Minimal G A s [x] → Minimal G A s [x'] → x.2 = x'.2 → x = x' := by
  constructor
  · intro h
    constructor
    · intro x hx
      obtain ⟨hv, he⟩ := (minimal_single_iff hl).mp hx
      have hcount := (List.count_le_length (a := firstEntry s x)).trans (h x.2 hv)
      rw [count_firstEntry hl hv.2] at hcount
      exact Nat.le_antisymm hcount hx.walk
    · intro x x' hx hx' heq
      obtain ⟨hv, he⟩ := (minimal_single_iff hl).mp hx
      obtain ⟨-, he'⟩ := (minimal_single_iff hl).mp hx'
      rw [← heq] at he'
      obtain ⟨e, hes⟩ := List.length_eq_one_iff.mp
        (Nat.le_antisymm (h x.2 hv) (List.length_pos_of_mem he))
      rw [hes, List.mem_singleton] at he he'
      have hentry := he.trans he'.symm
      simp only [firstEntry, IterTransition.mk.injEq, true_and] at hentry
      exact Prod.ext (Prod.ext hentry.2 hentry.1) heq
  · rintro ⟨honce, hfirst⟩ v hv
    by_contra hlength
    -- two entries are either two steps to one end or one step that can be chosen twice
    obtain ⟨e, e', es, hes⟩ : ∃ e e' es,
        entries (expansions G.provider A D found) v = e :: e' :: es := by
      match hentries : entries (expansions G.provider A D found) v with
      | [] => simp [hentries] at hlength
      | [e] => simp [hentries] at hlength
      | e :: e' :: es => exact ⟨e, e', es, rfl⟩
    obtain ⟨heq, hmin⟩ := minimal_of_entry hl hv (e := e) (by simp [hes])
    obtain ⟨heq', hmin'⟩ := minimal_of_entry hl hv (e := e') (by simp [hes])
    have hsame : e = e' := by
      rw [← heq, ← heq', hfirst _ _ hmin hmin' rfl]
    have htwice := count_firstEntry hl (x := (e.label, v)) hv.2
    rw [honce _ hmin, heq] at htwice
    dsimp only at htwice
    rw [hes, ← hsame] at htwice
    simp at htwice

theorem nodup_outputs_iff (hl : Levels G A s D found) : (foundPaths G A D found).Nodup ↔
    (∀ p, Minimal G A s p → multiplicity (openSteps G.provider A s) (0, s) p = 1) ∧
      ∀ x x', Minimal G A s [x] → Minimal G A s [x'] → x.2 = x'.2 → x = x' := by
  classical
  rw [List.nodup_iff_count_le_one]
  constructor
  · intro hle
    have honce : FirstOnce G A D found := by
      intro v hv
      apply length_le_one_of_returned
      intro e he
      obtain ⟨heq, -⟩ := minimal_of_entry hl hv he
      have hcount := hle [(e.label, v)]
      rwa [count_outputs_first hl, if_pos hv, heq] at hcount
    obtain ⟨hsingle, hfirst⟩ := (firstOnce_iff hl).mp honce
    refine ⟨fun p hp => ?_, hfirst⟩
    rcases List.eq_nil_or_concat p with rfl | ⟨q, x, rfl⟩
    · exact absurd rfl hp.ne_nil
    · rw [List.concat_eq_append] at hp ⊢
      by_cases hq : q = []
      · subst hq
        exact hsingle x hp
      · have hcount := hle (q ++ [x])
        rw [count_outputs_concat hl hq, if_pos hp] at hcount
        exact Nat.le_antisymm hcount hp.walk
  · rintro ⟨hsingle, hfirst⟩ p
    have honce := (firstOnce_iff hl).mpr ⟨fun x hx => hsingle [x] hx, hfirst⟩
    rcases List.eq_nil_or_concat p with rfl | ⟨q, x, rfl⟩
    · rw [List.count_eq_zero_of_not_mem (nil_not_mem_outputs _ _)]
      omega
    · rw [List.concat_eq_append]
      by_cases hq : q = []
      · subst hq
        rw [List.nil_append, count_outputs_first hl]
        split_ifs with hv
        · exact returned_le_one (honce x.2 hv) _
        · omega
      · rw [count_outputs_concat hl hq]
        split_ifs with hmin
        · exact (hsingle _ hmin).le
        · omega

theorem walksAlong_of_multiplicity (hp : 0 < multiplicity (openSteps G.provider A s) u p) :
    WalksAlong G u.2 (walkOf p) (endOf u p).2 := by
  induction p generalizing u with
  | nil => rfl
  | cons x p ih =>
    have hx := List.count_pos_iff.mp (Nat.pos_of_mul_pos_right hp)
    exact ⟨((mem_openSteps G.serves_provider).mp hx).1.2, ih (Nat.pos_of_mul_pos_left hp)⟩

theorem WalksAlong.run (h : WalksAlong G n W m) : Run G.Step n (W.map (·.1)) m := by
  induction W generalizing n with
  | nil => exact Run.nil_iff.mpr h
  | cons y W ih => exact .cons h.1 (ih h.2)

theorem walksAlong_of_run {w : List EdgeLabel} (h : Run G.Step n w m) :
    ∃ W, WalksAlong G n W m ∧ W.map (·.1) = w := by
  induction h with
  | nil => exact ⟨[], rfl, rfl⟩
  | @cons n k m l w hstep _ ih =>
    obtain ⟨W, hW, hmap⟩ := ih
    exact ⟨(l, k) :: W, ⟨hstep, hW⟩, by rw [List.map_cons, hmap]⟩

theorem WalksAlong.end_unique {m' : Nat} (h : WalksAlong G n W m) (h' : WalksAlong G n W m') :
    m = m' := by
  induction W generalizing n with
  | nil => exact h.symm.trans h'
  | cons y W ih => exact ih h.2 h'.2

theorem exists_shortestWalkTo (hs : s ∈ G.nodes) {w : List EdgeLabel} (hw : A.acceptsIds w)
    (hrun : Run G.Step s w m) : ∃ W, ShortestWalkTo G A s m W ∧ W.length ≤ w.length := by
  classical
  have hex : ∃ n, ∃ w, A.acceptsIds w ∧ Run G.Step s w m ∧ w.length = n := ⟨_, w, hw, hrun, rfl⟩
  obtain ⟨v, hv, hvrun, hlength⟩ := Nat.find_spec hex
  obtain ⟨W, hW, rfl⟩ := walksAlong_of_run hvrun
  rw [List.length_map] at hlength
  refine ⟨W, ⟨hs, hW, hv, fun w' hw' hrun' => ?_⟩, ?_⟩
  · rw [hlength]
    exact Nat.find_min' hex ⟨w', hw', hrun', rfl⟩
  · rw [hlength]
    exact Nat.find_min' hex ⟨w, hw, hrun, rfl⟩

theorem walkOf_eq_nil : walkOf p = [] ↔ p = [] := List.map_eq_nil_iff

theorem report_eq (h : p ≠ []) (u : Nat × Nat) : report p = ((endOf u p).2, walkOf p) := by
  rcases List.eq_nil_or_concat p with rfl | ⟨q, x, rfl⟩
  · exact absurd rfl h
  · rw [List.concat_eq_append, endOf_concat]
    simp [report]

theorem Minimal.accepted (h : Minimal G A s p) :
    WalksAlong G s (walkOf p) (endOf (0, s) p).2 ∧ A.acceptsIds ((walkOf p).map (·.1)) := by
  have hrun : Run (ProductStep G A) (0, s) (p.map (·.1)) (endOf (0, s) p) :=
    (run_of_multiplicity h.walk).mono fun u l v hx => ((mem_openSteps G.serves_provider).mp hx).1
  have hwords : (walkOf p).map (·.1) = p.map (·.1) := by simp [walkOf]
  refine ⟨walksAlong_of_multiplicity h.walk, .inr ⟨?_, ?_⟩⟩
  · rw [hwords]
    simpa using h.ne_nil
  · rw [hwords, ← h.final]
    exact (run_productStep.mp hrun).1

theorem Minimal.shortestWalkTo (hU : Unhindered G A s) (hs : s ∈ G.nodes) (h : Minimal G A s p) :
    ShortestWalkTo G A s (endOf (0, s) p).2 (walkOf p) := by
  obtain ⟨halong, haccepted⟩ := h.accepted
  refine ⟨hs, halong, haccepted, fun w hw hrun => ?_⟩
  obtain ⟨W, hW, hle⟩ := exists_shortestWalkTo hs hw hrun
  by_cases hnil : W = []
  · -- the end would be the start node, whose final state the search starts in or marks
    subst hnil
    have hend : s = (endOf (0, s) p).2 := hW.along
    have hfinal : A.startIsFinal := by
      rcases hW.accepted with ⟨-, hfinal⟩ | ⟨hne, -⟩
      · exact hfinal
      · exact absurd rfl hne
    by_cases hzero : A.finalState = 0
    · have hroot : (0, s) = endOf (0, s) p := Prod.ext (by rw [h.final, hzero]) hend
      have hshort := h.shortest [] (Run.nil_iff.mpr hroot)
      exact absurd (List.eq_nil_of_length_eq_zero (Nat.le_zero.mp hshort)) h.ne_nil
    · exact absurd ⟨hfinal, hzero, Prod.ext h.final hend.symm⟩ h.fresh
  · obtain ⟨p', hp', rfl⟩ := hU _ W hW hnil
    have hend : endOf (0, s) p' = endOf (0, s) p :=
      Prod.ext (hp'.final.trans h.final.symm) (hp'.accepted.1.end_unique hW.along)
    have hshort := h.shortest _ (hend ▸ run_of_multiplicity hp'.walk)
    simp only [walkOf, List.length_map] at hshort hle ⊢
    omega

theorem expansions_length_le (hnodup : (found.map SearchState.key).Nodup)
    (hmem : ∀ r ∈ found, r.key ∈ vertices G A) : (expansions G.provider A D found).length ≤
      ∑ v ∈ vertices G A, (productSteps G.provider A v).length := by
  have hle : (expansions G.provider A D found).length ≤
      ((found.map SearchState.key).map fun v => (productSteps G.provider A v).length).sum := by
    rw [expansions, List.length_flatMap, List.map_map]
    apply List.sum_le_sum
    intro r _
    rw [tight, List.length_map]
    exact List.length_filter_le _ _
  rw [← List.sum_toFinset _ hnodup] at hle
  refine hle.trans (Finset.sum_le_sum_of_subset fun v hv => ?_)
  obtain ⟨r, hr, rfl⟩ := List.mem_map.mp (List.mem_toFinset.mp hv)
  exact hmem r hr

def resultsOf (G : QuadModel) (A : RPQAutomaton) (s : Nat) (D : Nat × Nat → Nat)
    (found : List SearchState) : List (Nat × List (EdgeLabel × Nat)) :=
  emptyResult A s ++ (foundPaths G A D found).map report

theorem exists_results (hA : A.InRange) (hs : s ∈ G.nodes) :
    ∃ D found, Levels G A s D found ∧ ∀ fuel, searchBound G A ≤ fuel →
      Yields (BFSEnum.next G A fuel) (.start s) (resultsOf G A s D found) := by
  obtain ⟨out, D, hsearch, hl, hdist, hmem⟩ := exists_levels (G := G) hA s
  obtain ⟨hroot, hout⟩ := List.forall_mem_cons.mp hdist
  have hvertices : ∀ r ∈ (⟨0, s, 0⟩ : SearchState) :: out, r.key ∈ vertices G A := by
    refine List.forall_mem_cons.mpr ⟨?_, hmem⟩
    simp [vertices, SearchState.key, hs, hA.start_lt]
  have hlength : out.length ≤ (vertices G A).card :=
    hsearch.length_le _ (fun _ _ => productSteps_vertices G.serves_provider hA)
      SearchState.key_extend (productSteps_vertices G.serves_provider hA) (by simp)
  have hexpansions := expansions_length_le (D := D) hl.nodup hvertices
  have hcard := card_vertices_le G A
  refine ⟨D, _, hl, fun fuel hfuel => ?_⟩
  apply BFSEnum.yields_next hs hsearch hout hroot.symm hl.unreached
  unfold searchBound at hfuel
  omega

theorem mem_resultsOf (hl : Levels G A s D found) : (m, W) ∈ resultsOf G A s D found ↔
    (A.startIsFinal ∧ m = s ∧ W = []) ∨
      ∃ p, Minimal G A s p ∧ (endOf (0, s) p).2 = m ∧ walkOf p = W := by
  rw [resultsOf, List.mem_append, List.mem_map, emptyResult]
  refine or_congr ?_ ⟨?_, ?_⟩
  · by_cases hfinal : A.startIsFinal <;> simp [hfinal]
  · rintro ⟨p, hp, heq⟩
    have hmin := (mem_outputs_iff hl).mp hp
    rw [report_eq hmin.ne_nil (0, s), Prod.mk.injEq] at heq
    exact ⟨p, hmin, heq⟩
  · rintro ⟨p, hmin, rfl, rfl⟩
    exact ⟨p, (mem_outputs_iff hl).mpr hmin, report_eq hmin.ne_nil (0, s)⟩

/-- Exactly the shortest accepted walks are results when nothing hinders the search. -/
theorem mem_resultsOf_iff (hl : Levels G A s D found) (hs : s ∈ G.nodes) :
    (∀ m W, (m, W) ∈ resultsOf G A s D found ↔ ShortestWalkTo G A s m W) ↔ Unhindered G A s := by
  constructor
  · intro h m W hW hne
    rcases (mem_resultsOf hl).mp ((h m W).mpr hW) with ⟨-, -, rfl⟩ | ⟨p, hp, -, rfl⟩
    · exact absurd rfl hne
    · exact ⟨p, hp, rfl⟩
  · intro hU m W
    rw [mem_resultsOf hl]
    constructor
    · rintro (⟨hfinal, rfl, rfl⟩ | ⟨p, hp, rfl, rfl⟩)
      · exact ⟨hs, rfl, .inl ⟨rfl, hfinal⟩, fun _ _ _ => Nat.zero_le _⟩
      · exact hp.shortestWalkTo hU hs
    · intro hW
      by_cases hnil : W = []
      · subst hnil
        rcases hW.accepted with ⟨-, hfinal⟩ | ⟨hne, -⟩
        · exact .inl ⟨hfinal, hW.along.symm, rfl⟩
        · exact absurd rfl hne
      · obtain ⟨p, hp, rfl⟩ := hU m W hW hnil
        exact .inr ⟨p, hp, hp.accepted.1.end_unique hW.along, rfl⟩

theorem nodup_resultsOf_iff (hl : Levels G A s D found) :
    (resultsOf G A s D found).Nodup ↔ Unambiguous G A s := by
  have hne : ∀ p ∈ foundPaths G A D found, walkOf p ≠ [] := fun p hp hnil =>
    ((mem_outputs_iff hl).mp hp).ne_nil (walkOf_eq_nil.mp hnil)
  have hdisjoint : ∀ r ∈ emptyResult A s, ∀ r' ∈ (foundPaths G A D found).map report, r ≠ r' := by
    intro r hr r' hr' heq
    obtain ⟨p, hp, rfl⟩ := List.mem_map.mp hr'
    unfold emptyResult at hr
    split_ifs at hr
    · rw [List.mem_singleton.mp hr] at heq
      exact hne p hp (Prod.mk.inj heq).2.symm
    · exact absurd hr List.not_mem_nil
  have hempty : (emptyResult A s).Nodup := by
    unfold emptyResult
    split_ifs <;> simp
  rw [resultsOf, List.nodup_append]
  constructor
  · rintro ⟨-, hnodup, -⟩
    obtain ⟨hsingle, hfirst⟩ := (nodup_outputs_iff hl).mp (List.Nodup.of_map _ hnodup)
    refine ⟨hsingle, fun p p' hp hp' heq => ?_, hfirst⟩
    apply List.inj_on_of_nodup_map hnodup ((mem_outputs_iff hl).mpr hp) ((mem_outputs_iff hl).mpr hp')
    rw [report_eq hp.ne_nil (0, s), report_eq hp'.ne_nil (0, s), heq]
    have hend : (endOf (0, s) p).2 = (endOf (0, s) p').2 :=
      hp.accepted.1.end_unique (heq ▸ hp'.accepted.1)
    rw [hend]
  · intro h
    refine ⟨hempty, ?_, hdisjoint⟩
    apply List.Nodup.map_on _ ((nodup_outputs_iff hl).mpr ⟨h.single, h.first⟩)
    intro p hp p' hp' heq
    rw [mem_outputs_iff hl] at hp hp'
    rw [report_eq hp.ne_nil (0, s), report_eq hp'.ne_nil (0, s)] at heq
    exact h.run p p' hp hp' (Prod.mk.inj heq).2

theorem exists_product_walk {q q' : Nat} (hrun : Run A.IdStep q (W.map (·.1)) q')
    (halong : WalksAlong G n W m) : ∃ p, walkOf p = W ∧ endOf (q, n) p = (q', m) ∧
      0 < multiplicity (productSteps G.provider A) (q, n) p := by
  induction W generalizing q n with
  | nil =>
    obtain rfl : n = m := halong
    exact ⟨[], rfl, by rw [← Run.nil_iff.mp hrun]; rfl, Nat.one_pos⟩
  | cons y W ih =>
    obtain ⟨hstep, halong⟩ := halong
    obtain ⟨r, hr, hrest⟩ := Run.cons_iff.mp hrun
    obtain ⟨p, hp, hend, hpos⟩ := ih hrest halong
    refine ⟨(y.1, (r, y.2)) :: p, ?_, hend, Nat.mul_pos ?_ hpos⟩
    · rw [walkOf, List.map_cons, ← hp]
      rfl
    · exact List.count_pos_iff.mpr ((mem_productSteps G.serves_provider).mpr ⟨hr, hstep⟩)

theorem not_minimal_of_not_mem (hs : s ∉ G.nodes) : ¬ Minimal G A s p := by
  intro h
  cases p with
  | nil => exact h.ne_nil rfl
  | cons x p =>
    have hx := List.count_pos_iff.mp (Nat.pos_of_mul_pos_right h.walk)
    exact hs ((mem_openSteps G.serves_provider).mp hx).1.2.mem_nodes.1

/-- `BFSEnum` is right exactly when every shortest walk has a run that it can take, and only
one, and no two walks of one step lead to one end. -/
theorem returnsShortestWalks_iff (G : QuadModel) (A : RPQAutomaton) (s : Nat) (hA : A.InRange) :
    ReturnsShortestWalks G A s ↔ Unhindered G A s ∧ Unambiguous G A s := by
  by_cases hs : s ∈ G.nodes
  · obtain ⟨D, found, hl, hyields⟩ := exists_results hA hs
    rw [← mem_resultsOf_iff hl hs, ← nodup_resultsOf_iff hl]
    constructor
    · intro h
      obtain ⟨results, hresults, hnodup, hmem⟩ := h _ le_rfl
      obtain rfl := hresults.unique (hyields _ le_rfl)
      exact ⟨hmem, hnodup⟩
    · rintro ⟨hmem, hnodup⟩ fuel hfuel
      exact ⟨_, hyields fuel hfuel, hnodup, hmem⟩
  · refine iff_of_true (fun fuel _ => ⟨[], BFSEnum.yields_nil hs, .nil, fun m W => ?_⟩) ⟨?_, ?_⟩
    · exact ⟨fun h => absurd h List.not_mem_nil, fun h => absurd h.source_mem hs⟩
    · exact fun m W hW => absurd hW.source_mem hs
    · exact ⟨fun p hp => absurd hp (not_minimal_of_not_mem hs),
        fun p _ hp => absurd hp (not_minimal_of_not_mem hs),
        fun x _ hx => absurd hx (not_minimal_of_not_mem hs)⟩

theorem returnsShortestWalks_loopAndEdge : ReturnsShortestWalks loopAndEdge finalAlone 0 ↔
    Unhindered loopAndEdge finalAlone 0 ∧ Unambiguous loopAndEdge finalAlone 0 :=
  returnsShortestWalks_iff loopAndEdge finalAlone 0 inRange_finalAlone

def twoTypes : QuadModel where
  nodes := [0, 1]
  typeFromToEdge := [(0, 0, 1, 0), (1, 0, 1, 1)]
  toTypeFromEdge := [(1, 0, 0, 0), (1, 1, 0, 1)]
  same_edges := by
    intros
    simp
    omega
  endpoints := by
    intro _ _ _ _ h
    simp at h ⊢
    omega
  nodup_forward := by decide
  nodup_backward := by decide

/-- The walk over type 0 is returned again when the transition of type 1 is added. -/
theorem not_returnsShortestWalks : ¬ ReturnsShortestWalks twoTypes finalAlone 0 := by
  intro h
  obtain ⟨results, hyields, hnodup, -⟩ := h (searchBound twoTypes finalAlone) le_rfl
  have hone : results[1]? = some (1, [((0, false), 1)]) := by
    rw [← hyields 1]
    decide
  have htwo : results[2]? = some (1, [((0, false), 1)]) := by
    rw [← hyields 2]
    decide
  obtain ⟨hlt, h1⟩ := List.getElem?_eq_some_iff.mp hone
  obtain ⟨hlt', h2⟩ := List.getElem?_eq_some_iff.mp htwo
  exact absurd ((hnodup.getElem_inj_iff).mp (h1.trans h2.symm)) (by decide)

end

end AllShortest
end Paths
end MillenniumDB
