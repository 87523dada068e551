import Mathlib.Tactic.Ring
import MillenniumDB.AllShortest

/-!
# What the all-shortest search returns

The results of `AllShortest::BFSEnum` are counted through walks of the product.  A walk of
the product is returned as often as it can be chosen, one parallel edge and one transition at
each step, except on the first level, where every new transition makes the search start over.
So the search returns every shortest walk once exactly when nothing is ambiguous.
-/

namespace MillenniumDB
namespace Paths
namespace AllShortest

/-- The steps that a search from `s` can take: none from the final state at `s` that it marks
as visited. -/
def openSteps (P : PathIndexProvider) (A : RPQAutomaton) (s : Nat) (u : Nat × Nat) :
    List (EdgeLabel × Nat × Nat) :=
  if A.startIsFinal ∧ A.finalState ≠ 0 ∧ u = (A.finalState, s) then [] else productSteps P A u

def multiplicity (steps : Nat × Nat → List (EdgeLabel × Nat × Nat)) : Nat × Nat → ProductPath → Nat
  | _, [] => 1
  | u, x :: p => (steps u).count x * multiplicity steps x.2 p

def endOf : Nat × Nat → ProductPath → Nat × Nat
  | u, [] => u
  | _, x :: p => endOf x.2 p

def WalksAlong (G : QuadModel) : Nat → List (EdgeLabel × Nat) → Nat → Prop
  | n, [], m => n = m
  | n, (l, k) :: W, m => G.Step n l k ∧ WalksAlong G k W m

section

variable {G : QuadModel} {P : PathIndexProvider} {A : RPQAutomaton} {s : Nat} {u v : Nat × Nat}
  {p : ProductPath} {steps : Nat × Nat → List (EdgeLabel × Nat × Nat)}

theorem openSteps_of_mem (hu : u ∈ marked A s) : openSteps P A s u = [] := if_pos hu

theorem openSteps_of_not_mem (hu : u ∉ marked A s) : openSteps P A s u = productSteps P A u :=
  if_neg hu

theorem mem_openSteps (hP : P.Serves G) {x : EdgeLabel × Nat × Nat} :
    x ∈ openSteps P A s u ↔ ProductStep G A u x.1 x.2 ∧ u ∉ marked A s := by
  by_cases hu : u ∈ marked A s
  · simp [openSteps_of_mem hu, hu]
  · rw [openSteps_of_not_mem hu, mem_productSteps hP]
    simp [hu]

theorem multiplicity_concat (u : Nat × Nat) (p : ProductPath) (x : EdgeLabel × Nat × Nat) :
    multiplicity steps u (p ++ [x]) = (steps (endOf u p)).count x * multiplicity steps u p := by
  induction p generalizing u with
  | nil => simp [multiplicity, endOf]
  | cons y p ih =>
    rw [List.cons_append, multiplicity, ih, endOf, multiplicity]
    exact Nat.mul_left_comm _ _ _

theorem endOf_concat (u : Nat × Nat) (p : ProductPath) (x : EdgeLabel × Nat × Nat) :
    endOf u (p ++ [x]) = x.2 := by
  induction p generalizing u with
  | nil => rfl
  | cons y p ih => exact ih y.2

theorem run_of_multiplicity (h : 0 < multiplicity steps u p) :
    Run (fun u l v => (l, v) ∈ steps u) u (p.map (·.1)) (endOf u p) := by
  induction p generalizing u with
  | nil => exact .nil u
  | cons x p ih =>
    have hx : 0 < (steps u).count x := Nat.pos_of_mul_pos_right h
    exact .cons (List.count_pos_iff.mp hx) (ih (Nat.pos_of_mul_pos_left h))

end

/-- A step that a search from `s` can take. -/
def OpenStep (G : QuadModel) (A : RPQAutomaton) (s : Nat) (u : Nat × Nat) (l : EdgeLabel)
    (v : Nat × Nat) : Prop := (l, v) ∈ openSteps G.provider A s u

/-- What a search has found: every vertex that a walk reaches, but not the marked one, in the
order of the distances `D`. -/
structure Levels (G : QuadModel) (A : RPQAutomaton) (s : Nat) (D : Nat × Nat → Nat)
    (found : List SearchState) : Prop where
  nodup : (found.map SearchState.key).Nodup
  sorted : found.Pairwise fun r r' => D r.key ≤ D r'.key
  walk : ∀ r ∈ found, ∃ w, Run (OpenStep G A s) (0, s) w r.key ∧ w.length = D r.key
  fresh : ∀ r ∈ found, r.key ∉ marked A s
  complete : ∀ w v, Run (OpenStep G A s) (0, s) w v → v ∉ marked A s →
    v ∈ keys found ∧ D v ≤ w.length
  unreached : ∀ v ∈ marked A s, D v = 0

section

variable {G : QuadModel} {P : PathIndexProvider} {A : RPQAutomaton} {s n : Nat}
  {D : Nat × Nat → Nat} {found out : List SearchState} {u v k : Nat × Nat}

theorem derived_run {r : SearchState} (h : Derived (openSteps G.provider A s) SearchState.key
    SearchState.extend ⟨0, s, 0⟩ r) :
    ∃ w, Run (OpenStep G A s) (0, s) w r.key ∧ w.length = r.distance := by
  induction h with
  | root => exact ⟨[], .nil _, rfl⟩
  | @step e x _ hx ih =>
    obtain ⟨w, hw, hlength⟩ := ih
    refine ⟨w ++ [x.1], Run.concat_iff.mpr ⟨_, hw, hx⟩, ?_⟩
    simp [hlength, SearchState.distance_extend]

theorem openRun_avoids {w : List EdgeLabel} (hv : v ∉ marked A s)
    (h : Run (OpenStep G A s) (0, s) w v) :
    Run (fun u l v => OpenStep G A s u l v ∧ v ∉ marked A s) (0, s) w v := by
  refine h.avoiding fun u u' b _ _ _ hb hmem => ?_
  cases u' with
  | nil =>
    rw [Run.nil_iff.mp hb] at hmem
    exact hv hmem
  | cons l u' =>
    obtain ⟨b', hstep, -⟩ := Run.cons_iff.mp hb
    rw [OpenStep, openSteps_of_mem hmem] at hstep
    exact absurd hstep List.not_mem_nil

def distanceIn (found : List SearchState) (v : Nat × Nat) : Nat :=
  (found.find? fun r => r.key = v).elim 0 SearchState.distance

theorem distanceIn_of_mem (hnodup : (found.map SearchState.key).Nodup) {r : SearchState}
    (hr : r ∈ found) : r.distance = distanceIn found r.key := by
  unfold distanceIn
  cases hfind : found.find? fun r' => r'.key = r.key with
  | none => exact absurd (decide_eq_true rfl) (List.find?_eq_none.mp hfind r hr)
  | some r' =>
    have hkey : r'.key = r.key := by simpa using List.find?_some hfind
    obtain rfl := List.inj_on_of_nodup_map hnodup (List.mem_of_find?_eq_some hfind) hr hkey
    rfl

theorem distanceIn_of_not_mem (hv : v ∉ keys found) : distanceIn found v = 0 := by
  have hnone : (found.find? fun r => r.key = v) = none := by
    rw [List.find?_eq_none]
    exact fun r hr hkey => hv ⟨r, hr, of_decide_eq_true hkey⟩
  rw [distanceIn, hnone]
  rfl

theorem root_not_marked : (0, s) ∉ marked A s := fun ⟨_, hzero, heq⟩ =>
  hzero (Prod.mk.inj heq).1.symm

theorem exists_levels (hA : A.InRange) (s : Nat) :
    ∃ out D, DistanceSearch G.provider A (insert (0, s) (marked A s)) ⟨0, s, 0⟩
        (productSteps G.provider A (0, s)) [] out ∧ Levels G A s D (⟨0, s, 0⟩ :: out) ∧
      (∀ r ∈ (⟨0, s, 0⟩ : SearchState) :: out, r.distance = D r.key) ∧
      ∀ r ∈ out, r.key ∈ vertices G A := by
  have hU : ∀ v ∈ vertices G A, ∀ x ∈ productSteps G.provider A v, x.2 ∈ vertices G A :=
    fun _ _ => productSteps_vertices G.serves_provider hA
  have hsearch : ∃ out, DistanceSearch G.provider A (insert (0, s) (marked A s)) ⟨0, s, 0⟩
      (productSteps G.provider A (0, s)) [] out := Search.exists_out (vertices G A) hU
    SearchState.key_extend (productSteps_vertices G.serves_provider hA) (by simp)
  obtain ⟨out, h⟩ := hsearch
  obtain ⟨hnodup, hnew⟩ := h.nodup SearchState.key_extend
  obtain ⟨hsorted, hle⟩ := h.sorted SearchState.distance_extend (by simp) .nil
  have hnodup' : (((⟨0, s, 0⟩ : SearchState) :: out).map SearchState.key).Nodup := by
    rw [List.map_cons, List.nodup_cons]
    refine ⟨fun hmem => ?_, hnodup⟩
    obtain ⟨r, hr, hkey⟩ := List.mem_map.mp hmem
    exact hnew r hr (.inl hkey)
  have hD : ∀ r ∈ (⟨0, s, 0⟩ : SearchState) :: out, r.distance =
      distanceIn (⟨0, s, 0⟩ :: out) r.key := fun r hr => distanceIn_of_mem hnodup' hr
  have hfresh : ∀ r ∈ (⟨0, s, 0⟩ : SearchState) :: out, r.key ∉ marked A s :=
    List.forall_mem_cons.mpr
      ⟨root_not_marked, fun r hr hm => hnew r hr (Set.mem_insert_of_mem _ hm)⟩
  -- what is marked is never expanded, so the search is one over the open steps
  have hopen : Search (openSteps G.provider A s) SearchState.key SearchState.extend
      (insert (SearchState.key ⟨0, s, 0⟩) (marked A s)) ⟨0, s, 0⟩
      (openSteps G.provider A s (SearchState.key ⟨0, s, 0⟩)) [] out := by
    show Search _ _ _ (insert (0, s) (marked A s)) _ (openSteps G.provider A s (0, s)) _ _
    rw [openSteps_of_not_mem root_not_marked]
    refine h.congr_succ (by simp) fun r hr => ?_
    exact openSteps_of_not_mem (hfresh r (List.mem_cons_of_mem _ hr))
  refine ⟨out, _, h, ⟨hnodup', ?_, fun r hr => ?_, hfresh, fun w v hw hv => ?_, fun v hv => ?_⟩, hD,
    h.keys_mem _ hU SearchState.key_extend (productSteps_vertices G.serves_provider hA) (by simp)⟩
  · have hall : ((⟨0, s, 0⟩ : SearchState) :: out).Pairwise fun r r' => r.distance ≤ r'.distance :=
      List.pairwise_cons.mpr ⟨fun r _ => Nat.zero_le _, hsorted⟩
    exact hall.imp_of_mem fun hr hr' hle => by rwa [← hD _ hr, ← hD _ hr']
  · rw [← hD r hr]
    apply derived_run
    rcases List.mem_cons.mp hr with rfl | hr
    · exact .root
    · exact hopen.derived .root (List.Subset.refl _) (by simp) r hr
  · obtain ⟨r, hr, rfl, hdist⟩ := hopen.found_of_run SearchState.key_extend
      SearchState.distance_extend (openRun_avoids hv hw)
    exact ⟨⟨r, hr, rfl⟩, by rw [← hD r hr]; simpa using hdist⟩
  · exact distanceIn_of_not_mem fun ⟨r, hr, hkey⟩ => hfresh r hr (hkey ▸ hv)

theorem count_tight (u v : Nat × Nat) (x : EdgeLabel × Nat × Nat) (xs : List (EdgeLabel × Nat × Nat)) :
    (tight D v xs).count (u, x) = if u = v ∧ D x.2 = D u + 1 then xs.count x else 0 := by
  induction xs with
  | nil => simp [tight]
  | cons y xs ih =>
    by_cases hy : D y.2 = D v + 1
    · rw [tight_cons_of_eq hy, List.count_cons, ih, List.count_cons]
      by_cases hu : u = v
      · subst hu
        by_cases hx : y = x
        · subst hx
          simp [hy]
        · by_cases hD : D x.2 = D u + 1 <;> simp [hx, hD]
      · simp [hu, Ne.symm hu]
    · rw [tight_cons_of_ne hy, ih, List.count_cons]
      by_cases hx : y = x
      · subst hx
        by_cases hu : u = v
        · subst hu
          simp [hy]
        · simp [hu]
      · simp [hx]

theorem mem_keys_iff : v ∈ keys found ↔ v ∈ found.map SearchState.key := by simp [keysOf]

theorem count_expansions (hnodup : (found.map SearchState.key).Nodup) (u : Nat × Nat)
    (x : EdgeLabel × Nat × Nat) : (expansions P A D found).count (u, x) =
      if u ∈ found.map SearchState.key ∧ D x.2 = D u + 1 then (productSteps P A u).count x
      else 0 := by
  induction found with
  | nil => simp [expansions]
  | cons r found ih =>
    rw [List.map_cons, List.nodup_cons] at hnodup
    have hcons : expansions P A D (r :: found) =
        tight D r.key (productSteps P A r.key) ++ expansions P A D found := rfl
    rw [hcons, List.count_append, count_tight, ih hnodup.2, List.map_cons]
    simp only [List.mem_cons]
    by_cases hu : u = r.key
    · subst hu
      by_cases hD : D x.2 = D r.key + 1 <;> simp [hnodup.1, hD]
    · simp [hu]

theorem count_entries (evs : List Event) (v : Nat × Nat) (e : IterTransition) :
    (entries evs v).count e = evs.count (e.previous, (e.label, v)) := by
  induction evs with
  | nil => rfl
  | cons ev evs ih =>
    obtain ⟨u, ⟨typeId, inverse⟩, w⟩ := ev
    have hcons : entries ((u, ((typeId, inverse), w)) :: evs) v =
        entries [(u, ((typeId, inverse), w))] v ++ entries evs v := entries_append [_] evs v
    rw [hcons, entries_singleton, List.count_append, ih, List.count_cons]
    obtain ⟨u', inverse', typeId'⟩ := e
    by_cases hw : w = v
    · subst hw
      have hiff : (⟨u, inverse, typeId⟩ : IterTransition) = ⟨u', inverse', typeId'⟩ ↔
          (u, ((typeId, inverse), w)) = (u', ((typeId', inverse'), w)) := by
        simp [and_comm]
      by_cases he : (⟨u, inverse, typeId⟩ : IterTransition) = ⟨u', inverse', typeId'⟩
      · simp [he, hiff.mp he, IterTransition.label, Nat.add_comm]
      · simp [he, mt hiff.mpr he, IterTransition.label]
    · simp [hw]

theorem mem_expansions (hnodup : (found.map SearchState.key).Nodup) {u : Nat × Nat}
    {x : EdgeLabel × Nat × Nat} : (u, x) ∈ expansions P A D found ↔
      u ∈ keys found ∧ D x.2 = D u + 1 ∧ x ∈ productSteps P A u := by
  rw [← List.count_pos_iff, count_expansions hnodup]
  by_cases h : u ∈ found.map SearchState.key ∧ D x.2 = D u + 1
  · rw [if_pos h, List.count_pos_iff]
    exact ⟨fun hx => ⟨mem_keys_iff.mpr h.1, h.2, hx⟩, fun hx => hx.2.2⟩
  · rw [if_neg h]
    exact ⟨fun h0 => absurd h0 (Nat.lt_irrefl 0), fun ⟨h₁, h₂, _⟩ => absurd ⟨mem_keys_iff.mp h₁, h₂⟩ h⟩

theorem sum_map_ite {α : Type*} [DecidableEq α] (xs : List α) (a : α) (c : Nat) :
    (xs.map fun b => if b = a then c else 0).sum = xs.count a * c := by
  induction xs with
  | nil => simp
  | cons b xs ih =>
    rw [List.map_cons, List.sum_cons, ih, List.count_cons]
    by_cases hb : b = a
    · simp [hb, Nat.add_mul, Nat.add_comm]
    · simp [hb]

theorem count_map_concat (paths : List ProductPath) (p : ProductPath) (x y : EdgeLabel × Nat × Nat) :
    (paths.map (· ++ [y])).count (p ++ [x]) = if y = x then paths.count p else 0 := by
  induction paths with
  | nil => simp
  | cons q paths ih =>
    rw [List.map_cons, List.count_cons, ih, List.count_cons]
    by_cases hy : y = x
    · simp [hy]
    · simp [hy]

theorem level_of_step (hl : Levels G A s D found) {p : ProductPath} {x : EdgeLabel × Nat × Nat}
    (hp : 0 < multiplicity (openSteps G.provider A s) (0, s) p)
    (hx : x ∈ openSteps G.provider A s (endOf (0, s) p)) (hk : x.2 ∈ keys found)
    (hD : D x.2 = p.length + 1) : endOf (0, s) p ∈ keys found ∧ D (endOf (0, s) p) = p.length := by
  have hfresh : endOf (0, s) p ∉ marked A s := by
    intro hmem
    rw [openSteps_of_mem hmem] at hx
    exact absurd hx List.not_mem_nil
  obtain ⟨hmem, hle⟩ := hl.complete _ _ (run_of_multiplicity hp) hfresh
  rw [List.length_map] at hle
  obtain ⟨r, hr, hkey⟩ := hmem
  obtain ⟨w, hw, hlength⟩ := hl.walk r hr
  rw [hkey] at hw hlength
  obtain ⟨r', hr', hkey'⟩ := hk
  have hshort := (hl.complete (w ++ [x.1]) x.2 (Run.concat_iff.mpr ⟨_, hw, hx⟩)
    (hkey' ▸ hl.fresh r' hr')).2
  rw [List.length_append, List.length_singleton] at hshort
  exact ⟨⟨r, hr, hkey⟩, by omega⟩

theorem openSteps_of_mem_keys (hl : Levels G A s D found) (hu : u ∈ keys found) :
    openSteps P A s u = productSteps P A u := by
  obtain ⟨r, hr, rfl⟩ := hu
  exact openSteps_of_not_mem (hl.fresh r hr)

theorem count_event (hl : Levels G A s D found) (p : ProductPath)
    (x : EdgeLabel × Nat × Nat) (hk : x.2 ∈ keys found) (hD : D x.2 = p.length + 1) :
    (expansions G.provider A D found).count (endOf (0, s) p, x) *
        multiplicity (openSteps G.provider A s) (0, s) p =
      multiplicity (openSteps G.provider A s) (0, s) (p ++ [x]) := by
  rw [multiplicity_concat, count_expansions hl.nodup]
  by_cases hp : 0 < multiplicity (openSteps G.provider A s) (0, s) p
  · by_cases hmem : endOf (0, s) p ∈ keys found
    · rw [openSteps_of_mem_keys hl hmem]
      by_cases hx : x ∈ productSteps G.provider A (endOf (0, s) p)
      · have hlevel := (level_of_step hl hp (openSteps_of_mem_keys hl hmem ▸ hx) hk hD).2
        rw [if_pos ⟨mem_keys_iff.mp hmem, by omega⟩]
      · rw [List.count_eq_zero_of_not_mem hx]
        simp
    · have hx : x ∉ openSteps G.provider A s (endOf (0, s) p) :=
        fun hx => hmem (level_of_step hl hp hx hk hD).1
      rw [if_neg fun h => hmem (mem_keys_iff.mpr h.1), List.count_eq_zero_of_not_mem hx]
  · simp [Nat.eq_zero_of_not_pos hp]

theorem count_pathsTo (hl : Levels G A s D found)
    (hk : k ∈ keys found) (hD : D k = n) (p : ProductPath) :
    (pathsTo (record (expansions G.provider A D found)) n k).count p =
      if endOf (0, s) p = k ∧ p.length = n then multiplicity (openSteps G.provider A s) (0, s) p
      else 0 := by
  induction n generalizing k p with
  | zero =>
    obtain ⟨r, hr, rfl⟩ := hk
    obtain ⟨w, hw, hlength⟩ := hl.walk r hr
    obtain rfl : w = [] := List.eq_nil_of_length_eq_zero (by omega)
    have hroot : (0, s) = r.key := Run.nil_iff.mp hw
    cases p with
    | nil => simp [pathsTo, endOf, hroot, multiplicity]
    | cons x p => simp [pathsTo]
  | succ n ih =>
    rcases List.eq_nil_or_concat p with rfl | ⟨p, x, rfl⟩
    · rw [if_neg (by simp)]
      apply List.count_eq_zero_of_not_mem
      simp [pathsTo]
    · rw [List.concat_eq_append, pathsTo, List.count_flatMap, endOf_concat, List.length_append,
        List.length_singleton]
      have hsummand : ∀ e ∈ entries (expansions G.provider A D found) k,
          ((pathsTo (record (expansions G.provider A D found)) n e.previous).map
            (· ++ [(e.label, k)])).count (p ++ [x]) =
          if e = ⟨endOf (0, s) p, x.1.2, x.1.1⟩ then
            (if x.2 = k ∧ p.length = n then multiplicity (openSteps G.provider A s) (0, s) p else 0)
          else 0 := by
        intro e he
        obtain ⟨hmem, hlevel, -⟩ := (mem_expansions hl.nodup).mp (mem_entries.mp he)
        rw [count_map_concat, ih hmem (by simp at hlevel; omega)]
        obtain ⟨previous, inverse, typeId⟩ := e
        obtain ⟨⟨typeId', inverse'⟩, v⟩ := x
        simp only [IterTransition.label, IterTransition.mk.injEq, Prod.mk.injEq]
        grind
      simp only [record, Function.comp_def]
      rw [List.map_congr_left hsummand, sum_map_ite]
      by_cases hx : x.2 = k ∧ p.length = n
      · obtain ⟨rfl, hlength⟩ := hx
        rw [if_pos ⟨rfl, hlength⟩, if_pos ⟨rfl, by omega⟩, count_entries]
        exact count_event hl p x hk (by omega)
      · rw [if_neg hx, if_neg (fun h => hx ⟨h.1, by omega⟩), Nat.mul_zero]

theorem expansions_sorted (hl : Levels G A s D found) :
    (expansions P A D found).Pairwise fun a b => D a.1 ≤ D b.1 := by
  rw [expansions, List.pairwise_flatMap]
  constructor
  · intro r _
    rw [tight, List.pairwise_map]
    exact List.pairwise_of_forall fun _ _ => le_rfl
  · refine hl.sorted.imp fun hle a ha b hb => ?_
    obtain ⟨x, -, rfl⟩ := List.mem_map.mp ha
    obtain ⟨y, -, rfl⟩ := List.mem_map.mp hb
    exact hle

theorem entries_of_split (hl : Levels G A s D found) {past evs : List Event} {ev : Event}
    (hall : past ++ ev :: evs = expansions P A D found) (hv : D v ≤ D ev.1) :
    entries (past ++ [ev]) v = entries (expansions P A D found) v := by
  have hnil : entries evs v = [] := by
    rw [List.eq_nil_iff_forall_not_mem]
    intro e he
    have hsorted := expansions_sorted (P := P) hl
    rw [← hall, List.pairwise_append, List.pairwise_cons] at hsorted
    have hle := hsorted.2.1.1 _ (mem_entries.mp he)
    have hmem : (e.previous, (e.label, v)) ∈ expansions P A D found := by
      rw [← hall]
      exact List.mem_append_right _ (List.mem_cons_of_mem _ (mem_entries.mp he))
    have hlevel := ((mem_expansions hl.nodup).mp hmem).2.1
    dsimp only at hle hlevel
    omega
  have hsplit : past ++ ev :: evs = (past ++ [ev]) ++ evs := by simp
  rw [← hall, hsplit, entries_append (past ++ [ev]) evs, hnil, List.append_nil]

theorem pathsTo_of_entries {past past' : List Event} {m : Nat}
    (hentries : ∀ v, D v ≤ m → entries past v = entries past' v)
    (hlevel : ∀ ev ∈ past', D ev.1 + 1 = D ev.2.2) (hk : D k = n) (hn : n ≤ m) :
    pathsTo (record past) n k = pathsTo (record past') n k := by
  induction n generalizing k with
  | zero => rfl
  | succ n ih =>
    rw [pathsTo, pathsTo]
    show (entries past k).flatMap _ = (entries past' k).flatMap _
    rw [hentries k (by omega)]
    refine List.flatMap_congr fun e he => ?_
    have hprev : D e.previous + 1 = D k := hlevel _ (mem_entries.mp he)
    rw [ih (by omega) (by omega)]

def eventPaths (D : Nat × Nat → Nat) (all : List Event) (ev : Event) : List ProductPath :=
  (pathsTo (record all) (D ev.1) ev.1).map (· ++ [ev.2])

theorem enumerated_eq (hl : Levels G A s D found) {past evs : List Event} {ev : Event}
    (hall : past ++ ev :: evs = expansions P A D found) (hev : D ev.1 ≠ 0) :
    enumerated (record (past ++ [ev])) (D ev.1) ev.2.2 =
      eventPaths D (expansions P A D found) ev := by
  obtain ⟨u, x⟩ := ev
  have hlast : (record (past ++ [(u, x)]) x.2).transitions.getLast? = some ⟨u, x.1.2, x.1.1⟩ := by
    simp [record, entries_append, entries_singleton]
  rw [enumerated, if_neg hev, hlast, Option.elim_some, eventPaths]
  rw [pathsTo_of_entries (fun v hv => entries_of_split hl hall hv)
    (fun ev hev => (((mem_expansions hl.nodup).mp hev).2.1).symm) rfl le_rfl]
  rfl

theorem enumerated_zero (past : List Event) (v : Nat × Nat) :
    enumerated (record past) 0 v = (entries past v).map fun e => [(e.label, v)] := by
  simp [enumerated, pathsTo, record, List.map_eq_flatMap]

theorem count_enumerated (hl : Levels G A s D found) {past evs : List Event} {ev : Event}
    (hall : past ++ ev :: evs = expansions G.provider A D found) (hev : D ev.1 ≠ 0)
    (p : ProductPath) (x : EdgeLabel × Nat × Nat) :
    (enumerated (record (past ++ [ev])) (D ev.1) ev.2.2).count (p ++ [x]) =
      if ev = (endOf (0, s) p, x) ∧ D (endOf (0, s) p) = p.length then
        multiplicity (openSteps G.provider A s) (0, s) p else 0 := by
  have hmem : ev ∈ expansions G.provider A D found := by
    rw [← hall]
    simp
  obtain ⟨u, y⟩ := ev
  have hu := ((mem_expansions hl.nodup).mp hmem).1
  rw [enumerated_eq hl hall hev, eventPaths, count_map_concat, count_pathsTo hl hu rfl]
  by_cases hy : y = x
  · by_cases hend : endOf (0, s) p = u
    · subst hy hend
      simp [eq_comm]
    · simp [hend, Ne.symm hend]
  · simp [hy]

theorem count_outputs (hl : Levels G A s D found) {past evs : List Event}
    (hall : past ++ evs = expansions G.provider A D found) {p : ProductPath} (hp : p ≠ [])
    (x : EdgeLabel × Nat × Nat) :
    (outputs D A.finalState past evs).count (p ++ [x]) =
      if x.2.1 = A.finalState ∧ D (endOf (0, s) p) = p.length then
        evs.count (endOf (0, s) p, x) * multiplicity (openSteps G.provider A s) (0, s) p else 0 := by
  have hlength : p.length ≠ 0 := fun h => hp (List.eq_nil_of_length_eq_zero h)
  induction evs generalizing past with
  | nil => simp [outputs]
  | cons ev evs ih =>
    rw [outputs, List.count_append, ih (by rw [← hall, List.append_assoc]; rfl), List.count_cons]
    by_cases hfinal : ev.2.2.1 = A.finalState
    · rw [if_pos hfinal]
      by_cases hzero : D ev.1 = 0
      · have hnone : (enumerated (record (past ++ [ev])) (D ev.1) ev.2.2).count (p ++ [x]) = 0 := by
          apply List.count_eq_zero_of_not_mem
          rw [hzero, enumerated_zero]
          intro h
          obtain ⟨e, -, heq⟩ := List.mem_map.mp h
          have hone := congrArg List.length heq
          simp at hone
          exact hp hone
        rw [hnone, Nat.zero_add]
        by_cases heq : ev = (endOf (0, s) p, x)
        · subst heq
          have hroot : D (endOf (0, s) p) = 0 := hzero
          rw [if_neg (by omega), if_neg (by omega)]
        · simp [heq]
      · rw [count_enumerated hl hall hzero]
        by_cases heq : ev = (endOf (0, s) p, x)
        · subst heq
          by_cases hD : D (endOf (0, s) p) = p.length
          · have hfinal' : x.2.1 = A.finalState := hfinal
            simp [hfinal', hD, Nat.add_mul, Nat.add_comm]
          · simp [hD]
        · simp [heq]
    · rw [if_neg hfinal, List.count_nil, Nat.zero_add]
      by_cases heq : ev = (endOf (0, s) p, x)
      · subst heq
        have hfinal' : x.2.1 ≠ A.finalState := hfinal
        simp [hfinal']
      · simp [heq]

/-- How often an entry is returned on the first level: each entry makes the search return
every entry up to it. -/
def returned (e : IterTransition) : List IterTransition → Nat
  | [] => 0
  | f :: fs => (if f = e then fs.length + 1 else 0) + returned e fs

theorem returned_pos_iff {e : IterTransition} {es : List IterTransition} :
    0 < returned e es ↔ e ∈ es := by
  induction es with
  | nil => simp [returned]
  | cons f fs ih =>
    by_cases hf : f = e
    · subst hf
      simp [returned]
    · simp [returned, hf, Ne.symm hf, ih]

theorem returned_le_one {es : List IterTransition} (h : es.length ≤ 1) (e : IterTransition) :
    returned e es ≤ 1 := by
  match es, h with
  | [], _ => simp [returned]
  | [f], _ =>
    by_cases hf : f = e <;> simp [returned, hf]

theorem length_le_one_of_returned {es : List IterTransition} (h : ∀ e ∈ es, returned e es ≤ 1) :
    es.length ≤ 1 := by
  cases es with
  | nil => simp
  | cons f fs =>
    have hf := h f List.mem_cons_self
    simp only [returned, if_true] at hf
    simp only [List.length_cons]
    omega

theorem previous_of_entries (hl : Levels G A s D found) {e : IterTransition} (hv : D v = 1)
    (he : e ∈ entries (expansions P A D found) v) : e.previous = (0, s) := by
  obtain ⟨⟨r, hr, hkey⟩, hlevel, -⟩ := (mem_expansions hl.nodup).mp (mem_entries.mp he)
  obtain ⟨w, hw, hlength⟩ := hl.walk r hr
  have hzero : D e.previous = 0 := by
    dsimp only at hlevel
    omega
  obtain rfl : w = [] := List.eq_nil_of_length_eq_zero (by rw [hlength, hkey, hzero])
  rw [← hkey, Run.nil_iff.mp hw]

theorem count_map_single {es : List IterTransition} (hes : ∀ e ∈ es, e.previous = (0, s))
    (v : Nat × Nat) (x : EdgeLabel × Nat × Nat) :
    (es.map fun e => [(e.label, v)]).count [x] =
      if v = x.2 then es.count ⟨(0, s), x.1.2, x.1.1⟩ else 0 := by
  induction es with
  | nil => simp
  | cons e es ih =>
    obtain ⟨hhead, htail⟩ := List.forall_mem_cons.mp hes
    rw [List.map_cons, List.count_cons, ih htail, List.count_cons]
    obtain ⟨previous, inverse, typeId⟩ := e
    obtain rfl : previous = (0, s) := hhead
    obtain ⟨⟨typeId', inverse'⟩, v'⟩ := x
    by_cases hv : v = v'
    · simp [hv, IterTransition.label, and_comm]
    · simp [hv]

theorem count_outputs_single (hl : Levels G A s D found) {past evs : List Event}
    (hall : past ++ evs = expansions G.provider A D found) (x : EdgeLabel × Nat × Nat) :
    (outputs D A.finalState past evs).count [x] =
      if x.2.1 = A.finalState ∧ D x.2 = 1 then
        (entries evs x.2).length * (entries past x.2).count ⟨(0, s), x.1.2, x.1.1⟩ +
          returned ⟨(0, s), x.1.2, x.1.1⟩ (entries evs x.2)
      else 0 := by
  induction evs generalizing past with
  | nil => simp [outputs, entries, returned]
  | cons ev evs ih =>
    obtain ⟨u, y⟩ := ev
    have hmem : (u, y) ∈ expansions G.provider A D found := by
      rw [← hall]
      simp
    have hlevel : D y.2 = D u + 1 := ((mem_expansions hl.nodup).mp hmem).2.1
    have hadd : (if y.2.1 = A.finalState then
          enumerated (record (past ++ [(u, y)])) (D u) y.2 else []).count [x] =
        if (x.2.1 = A.finalState ∧ D x.2 = 1) ∧ y.2 = x.2 then
          (entries (past ++ [(u, y)]) x.2).count ⟨(0, s), x.1.2, x.1.1⟩ else 0 := by
      by_cases hfinal : y.2.1 = A.finalState
      · rw [if_pos hfinal]
        by_cases hzero : D u = 0
        · have hprevious : ∀ e ∈ entries (past ++ [(u, y)]) y.2, e.previous = (0, s) := by
            intro e he
            apply previous_of_entries (P := G.provider) hl (by rw [hlevel, hzero])
            rw [← hall, List.append_cons, entries_append (past ++ [(u, y)])]
            exact List.mem_append_left _ he
          rw [hzero, enumerated_zero, count_map_single hprevious]
          by_cases hy : y.2 = x.2
          · rw [← hy]
            simp [hfinal, hlevel, hzero]
          · simp [hy]
        · have hcount := count_enumerated hl hall hzero [] x
          rw [List.nil_append] at hcount
          dsimp only at hcount
          rw [hcount, if_neg, if_neg]
          · rintro ⟨⟨-, hone⟩, heq⟩
            rw [← heq] at hone
            omega
          · rintro ⟨heq, hroot⟩
            obtain ⟨rfl, -⟩ := Prod.mk.inj heq
            exact hzero hroot
      · rw [if_neg hfinal, List.count_nil, if_neg]
        rintro ⟨⟨h, -⟩, heq⟩
        rw [heq] at hfinal
        exact hfinal h
    have hcons : entries ((u, y) :: evs) x.2 = entries [(u, y)] x.2 ++ entries evs x.2 :=
      entries_append [_] evs x.2
    rw [outputs, List.count_append, ih (by rw [← hall, List.append_assoc]; rfl)]
    dsimp only
    rw [hadd, hcons, entries_append, entries_singleton]
    by_cases hx : x.2.1 = A.finalState ∧ D x.2 = 1
    · rw [if_pos hx, if_pos hx]
      by_cases hy : y.2 = x.2
      · rw [if_pos ⟨hx, hy⟩, if_pos hy, List.count_append, List.count_singleton]
        by_cases hf : (⟨u, y.1.2, y.1.1⟩ : IterTransition) = ⟨(0, s), x.1.2, x.1.1⟩
        · simp [hf, returned]
          ring
        · simp [hf, returned, -IterTransition.mk.injEq]
          ring
      · simp [hy]
    · rw [if_neg hx, if_neg hx, if_neg fun h => hx h.1]

end

end AllShortest
end Paths
end MillenniumDB
