import MillenniumDB.Lib.Explore

/-!
# Searching level by level

A queue holds vertices with their distances from a source.  A vertex gets its distance when it first
leaves the queue, and then its neighbours enter the queue behind all others.  Once the queue is
empty every vertex has the least number of steps from the source.
-/

namespace MillenniumDB

variable {V : Type*}

inductive ReachedIn (next : V → List V) (source : V) : Nat → V → Prop
  | source : ReachedIn next source 0 source
  | step {n u v} : ReachedIn next source n u → v ∈ next u → ReachedIn next source (n + 1) v

/-- What the distances from a source are; a vertex that is not reached has the value `far`. -/
structure IsDistance (next : V → List V) (source : V) (far : Nat) (distance : V → Nat) : Prop where
  le : ∀ n v, ReachedIn next source n v → distance v ≤ n
  reached : ∀ n v, ReachedIn next source n v → ReachedIn next source (distance v) v
  far : ∀ v, (∀ n, ¬ ReachedIn next source n v) → distance v = far

def levelLoop [DecidableEq V] (next : V → List V) :
    Nat → List (V × Nat) → List V → (V → Nat) → V → Nat
  | 0, _, _, distance => distance
  | _ + 1, [], _, distance => distance
  | fuel + 1, (v, d) :: queue, visited, distance =>
    if v ∈ visited then levelLoop next fuel queue visited distance
    else
      levelLoop next fuel (queue ++ (next v).map fun u => (u, d + 1)) (v :: visited)
        (fun u => if u = v then d else distance u)

structure LevelSearch (next : V → List V) (source : V) (far : Nat) (queue : List (V × Nat))
    (visited : List V) (distance : V → Nat) : Prop where
  queued : ∀ q ∈ queue, ReachedIn next source q.2 q.1
  reached : ∀ v ∈ visited, ReachedIn next source (distance v) v
  far : ∀ v, v ∉ visited → distance v = far
  start : source ∈ visited ∧ distance source = 0 ∨ (source, 0) ∈ queue
  closed : ∀ v ∈ visited, ∀ u ∈ next v,
    u ∈ visited ∧ distance u ≤ distance v + 1 ∨ (u, distance v + 1) ∈ queue
  behind : ∀ v ∈ visited, ∀ q ∈ queue, distance v ≤ q.2
  sorted : queue.Pairwise (·.2 ≤ ·.2)
  bounded : ∀ p ∈ queue, ∀ q ∈ queue, q.2 ≤ p.2 + 1

namespace LevelSearch

variable {next : V → List V} {source v : V} {far d : Nat} {queue : List (V × Nat)} {visited : List V}
  {distance : V → Nat}

theorem init : LevelSearch next source far [(source, 0)] [] fun _ => far where
  queued := by
    intro q hq
    rw [List.mem_singleton.mp hq]
    exact .source
  reached := fun _ hv => absurd hv List.not_mem_nil
  far := fun _ _ => rfl
  start := .inr List.mem_cons_self
  closed := fun _ hv => absurd hv List.not_mem_nil
  behind := fun _ hv => absurd hv List.not_mem_nil
  sorted := List.pairwise_singleton _ _
  bounded := by
    intro p hp q hq
    rw [List.mem_singleton.mp hp, List.mem_singleton.mp hq]
    exact Nat.le_succ _

theorem skip (h : LevelSearch next source far ((v, d) :: queue) visited distance) (hv : v ∈ visited) :
    LevelSearch next source far queue visited distance where
  queued := fun q hq => h.queued q (List.mem_cons_of_mem _ hq)
  reached := h.reached
  far := h.far
  start := by
    rcases h.start with hstart | hmem
    · exact .inl hstart
    · rcases List.mem_cons.mp hmem with heq | hmem
      · cases heq
        exact .inl ⟨hv, Nat.le_zero.mp (h.behind _ hv _ List.mem_cons_self)⟩
      · exact .inr hmem
  closed := by
    intro w hw u hu
    rcases h.closed w hw u hu with hvisited | hmem
    · exact .inl hvisited
    · rcases List.mem_cons.mp hmem with heq | hmem
      · cases heq
        exact .inl ⟨hv, h.behind _ hv _ List.mem_cons_self⟩
      · exact .inr hmem
  behind := fun w hw q hq => h.behind w hw q (List.mem_cons_of_mem _ hq)
  sorted := h.sorted.of_cons
  bounded := fun p hp q hq =>
    h.bounded p (List.mem_cons_of_mem _ hp) q (List.mem_cons_of_mem _ hq)

theorem isDistance (h : LevelSearch next source far [] visited distance) :
    IsDistance next source far distance := by
  have hreach : ∀ n v, ReachedIn next source n v → v ∈ visited ∧ distance v ≤ n := by
    intro n v hv
    induction hv with
    | source =>
      obtain ⟨hmem, hzero⟩ := h.start.resolve_right List.not_mem_nil
      exact ⟨hmem, hzero.le⟩
    | step _ hu ih =>
      obtain ⟨hmem, hle⟩ := (h.closed _ ih.1 _ hu).resolve_right List.not_mem_nil
      exact ⟨hmem, hle.trans (Nat.succ_le_succ ih.2)⟩
  refine ⟨fun n v hv => (hreach n v hv).2, fun n v hv => h.reached v (hreach n v hv).1, ?_⟩
  intro v hv
  apply h.far
  intro hmem
  exact hv _ (h.reached v hmem)

variable [DecidableEq V]

theorem take (h : LevelSearch next source far ((v, d) :: queue) visited distance) (hv : v ∉ visited) :
    LevelSearch next source far (queue ++ (next v).map fun u => (u, d + 1)) (v :: visited)
      fun u => if u = v then d else distance u := by
  have hhead : ReachedIn next source d v := h.queued (v, d) List.mem_cons_self
  have hqueue : ∀ q ∈ queue, d ≤ q.2 ∧ q.2 ≤ d + 1 := fun q hq =>
    ⟨List.rel_of_pairwise_cons h.sorted hq,
      h.bounded (v, d) List.mem_cons_self q (List.mem_cons_of_mem _ hq)⟩
  have hnew : ∀ q ∈ (next v).map fun u => (u, d + 1), q.2 = d + 1 ∧ q.1 ∈ next v := by
    intro q hq
    obtain ⟨u, hu, rfl⟩ := List.mem_map.mp hq
    exact ⟨rfl, hu⟩
  have hold : ∀ w ∈ visited, (if w = v then d else distance w) = distance w := by
    intro w hw
    apply if_neg
    rintro rfl
    exact hv hw
  have hall : ∀ q ∈ queue ++ (next v).map fun u => (u, d + 1), d ≤ q.2 ∧ q.2 ≤ d + 1 := by
    intro q hq
    rcases List.mem_append.mp hq with hq | hq
    · exact hqueue q hq
    · have := (hnew q hq).1
      omega
  constructor
  case queued =>
    intro q hq
    rcases List.mem_append.mp hq with hq | hq
    · exact h.queued q (List.mem_cons_of_mem _ hq)
    · rw [(hnew q hq).1]
      exact hhead.step (hnew q hq).2
  case reached =>
    intro w hw
    rcases List.mem_cons.mp hw with rfl | hw
    · rw [if_pos rfl]
      exact hhead
    · rw [hold w hw]
      exact h.reached w hw
  case far =>
    intro w hw
    obtain ⟨hne, hw⟩ := not_or.mp (mt List.mem_cons.mpr hw)
    rw [if_neg hne]
    exact h.far w hw
  case start =>
    rcases h.start with ⟨hmem, hzero⟩ | hmem
    · exact .inl ⟨List.mem_cons_of_mem _ hmem, (hold source hmem).trans hzero⟩
    · rcases List.mem_cons.mp hmem with heq | hmem
      · cases heq
        exact .inl ⟨List.mem_cons_self, if_pos rfl⟩
      · exact .inr (List.mem_append_left _ hmem)
  case closed =>
    intro w hw u hu
    rcases List.mem_cons.mp hw with rfl | hw
    · rw [if_pos rfl]
      exact .inr (List.mem_append_right _ (List.mem_map.mpr ⟨u, hu, rfl⟩))
    · rw [hold w hw]
      rcases h.closed w hw u hu with ⟨hmem, hle⟩ | hmem
      · exact .inl ⟨List.mem_cons_of_mem _ hmem, by rw [hold u hmem]; exact hle⟩
      · rcases List.mem_cons.mp hmem with heq | hmem
        · cases heq
          exact .inl ⟨List.mem_cons_self, by rw [if_pos rfl]⟩
        · exact .inr (List.mem_append_left _ hmem)
  case behind =>
    intro w hw q hq
    rcases List.mem_cons.mp hw with rfl | hw
    · rw [if_pos rfl]
      exact (hall q hq).1
    · rw [hold w hw]
      exact (h.behind w hw _ List.mem_cons_self).trans (hall q hq).1
  case sorted =>
    apply List.pairwise_append.mpr
    refine ⟨h.sorted.of_cons, ?_, fun p hp q hq => ?_⟩
    · exact List.pairwise_map.mpr (List.pairwise_of_forall fun _ _ => le_rfl)
    · rw [(hnew q hq).1]
      exact (hqueue p hp).2
  case bounded =>
    intro p hp q hq
    have hp := hall p hp
    have hq := hall q hq
    omega

def work (next : V → List V) (states : Finset V) (queue : List (V × Nat)) (visited : List V) : Nat :=
  exploreCost next states (queue.map Prod.fst) visited

theorem work_cons {states : Finset V} :
    work next states ((v, d) :: queue) visited = work next states queue visited + 1 := by
  unfold work exploreCost
  simp only [List.map_cons, List.length_cons]
  omega

theorem work_take {states : Finset V} (hstates : v ∉ states → next v = []) (hv : v ∉ visited) :
    work next states (queue ++ (next v).map fun u => (u, d + 1)) (v :: visited) =
      work next states queue visited := by
  have hvisit : exploreCost next states ((next v).reverse ++ queue.map Prod.fst) (v :: visited) + 1 =
      exploreCost next states (v :: queue.map Prod.fst) visited := exploreCost_visit hv hstates
  unfold work exploreCost at *
  simp only [List.map_append, List.length_append, List.length_map, List.length_reverse,
    List.length_cons] at *
  omega

/-- The loop comes to the end of the queue when its fuel covers what can still enter it. -/
theorem isDistance_levelLoop {states : Finset V} (hstates : ∀ v, v ∉ states → next v = [])
    {fuel : Nat} (h : LevelSearch next source far queue visited distance)
    (hfuel : work next states queue visited < fuel) :
    IsDistance next source far (levelLoop next fuel queue visited distance) := by
  induction fuel generalizing queue visited distance with
  | zero => exact absurd hfuel (Nat.not_lt_zero _)
  | succ fuel ih =>
    cases queue with
    | nil => exact h.isDistance
    | cons q queue =>
      obtain ⟨v, d⟩ := q
      rw [work_cons] at hfuel
      rw [levelLoop]
      by_cases hv : v ∈ visited
      · rw [if_pos hv]
        exact ih (h.skip hv) (by omega)
      · rw [if_neg hv]
        apply ih (h.take hv)
        rw [work_take (hstates v) hv]
        omega

end LevelSearch
end MillenniumDB
