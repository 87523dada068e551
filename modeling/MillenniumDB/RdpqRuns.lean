import MillenniumDB.RdpqSearches

/-!
# Data paths as runs

Both searches for data paths run in the product of the graph and the states with edge transitions,
from several vertices at once.  For a D/E automaton the data paths are the runs from these vertices.
-/

namespace MillenniumDB
namespace Paths

variable {V : Type}

def dataSteps (G : PropertyModel V) (t : RDPQTransition V) (node : Nat)
    (ds : List (RDPQTransition V)) : List (EdgeLabel × Nat × Nat) :=
  (ds.filter fun d => G.evalDataCheck node d.propertyChecks).map fun d =>
    ((t.typeId, t.inverse), (d.toState, node))

/-- The steps along a record for which the data transitions from index `k` on are left. -/
def recordSteps (G : PropertyModel V) (A : RDPQAutomaton V) (t : RDPQTransition V) (k : Nat)
    (record : Nat × Nat) : List (EdgeLabel × Nat × Nat) :=
  if k ≠ 0 ∨ G.evalDataCheck record.2 t.propertyChecks then
    dataSteps G t record.1 ((A.fromTo t.toState).drop k) else []

def edgeSteps (G : PropertyModel V) (A : RDPQAutomaton V) (n : Nat) (t : RDPQTransition V) :
    List (EdgeLabel × Nat × Nat) :=
  (G.setIter t.typeId t.inverse n).flatMap (recordSteps G A t 0)

def rdpqSteps (G : PropertyModel V) (A : RDPQAutomaton V) (v : Nat × Nat) :
    List (EdgeLabel × Nat × Nat) := (A.fromTo v.1).flatMap (edgeSteps G A v.2)

abbrev DataSearch (G : PropertyModel V) (A : RDPQAutomaton V) :=
  Search (rdpqSteps G A) SearchState.key SearchState.extend

/-- A step for an edge transition and a data transition behind it. -/
def RdpqStep (G : PropertyModel V) (A : RDPQAutomaton V) (u : Nat × Nat) (l : EdgeLabel)
    (v : Nat × Nat) : Prop := (l, v) ∈ rdpqSteps G A u

section

variable {G : PropertyModel V} {A : RDPQAutomaton V} {dState : Nat → Prop} {n m edge s q : Nat}
  {l : EdgeLabel} {t : RDPQTransition V} {u v : Nat × Nat} {p : List PathStep} {w : List EdgeLabel}

theorem mem_rdpqSteps : RdpqStep G A u l v ↔ ∃ t ∈ A.fromTo u.1, (t.typeId, t.inverse) = l ∧
    (∃ edge, G.HasEdge u.2 l edge v.2 ∧ G.evalDataCheck edge t.propertyChecks) ∧
    ∃ d ∈ A.fromTo t.toState, G.evalDataCheck v.2 d.propertyChecks ∧ d.toState = v.1 := by
  unfold RdpqStep rdpqSteps edgeSteps
  simp only [List.mem_flatMap]
  constructor
  · intro ⟨t, ht, ⟨m, edge⟩, hrecord, hstep⟩
    unfold recordSteps at hstep
    split_ifs at hstep with hedge
    · simp only [dataSteps, List.drop_zero, List.mem_map, List.mem_filter] at hstep
      obtain ⟨d, ⟨hd, hcheck⟩, heq⟩ := hstep
      obtain ⟨rfl, rfl⟩ := Prod.mk.inj heq
      refine ⟨t, ht, rfl, ⟨edge, ?_, ?_⟩, d, hd, hcheck, rfl⟩
      · exact (PropertyModel.mem_setIter (l := (t.typeId, t.inverse))).mp hrecord
      · exact hedge.resolve_left fun h => h rfl
    · exact absurd hstep List.not_mem_nil
  · intro ⟨t, ht, hl, ⟨edge, hstep, hedge⟩, d, hd, hcheck, hto⟩
    obtain ⟨q, m⟩ := v
    dsimp only at hstep hcheck hto
    refine ⟨t, ht, (m, edge), ?_, ?_⟩
    · rw [← hl] at hstep
      exact (PropertyModel.mem_setIter (l := (t.typeId, t.inverse))).mpr hstep
    · unfold recordSteps
      rw [if_pos (Or.inr hedge), List.drop_zero]
      simp only [dataSteps, List.mem_map, List.mem_filter]
      exact ⟨d, ⟨hd, hcheck⟩, by rw [hl, hto]⟩

/-- Between states with edge transitions a data path is a run of steps; a path from a state with
data transitions first takes one of these. -/
theorem ReadsDataPath.run (hA : A.IsDE dState) (h : ReadsDataPath G A u p v) (hv : ¬ dState v.1) :
    (¬ dState u.1 → ∃ w, Run (RdpqStep G A) u w v) ∧
      (dState u.1 → ∃ d ∈ A.fromTo u.1, G.evalDataCheck u.2 d.propertyChecks ∧
        ∃ w, Run (RdpqStep G A) (d.toState, u.2) w v) := by
  -- a data transition comes from a state of the one kind, an edge transition from one of the other
  induction h with
  | nil v => exact ⟨fun _ => ⟨[], .nil v⟩, fun hd => absurd hd hv⟩
  | @data q n t p v ht hcheck heval _ ih =>
    have hd : dState q := by
      by_contra hd
      exact (hA.edge_transition q hd t ht).1 hcheck
    obtain ⟨w, hw⟩ := (ih hv).1 (hA.data_transition q hd t ht).2
    exact ⟨fun hnot => absurd hd hnot, fun _ => ⟨t, ht, heval, w, hw⟩⟩
  | @edge q n t edge m p v ht hcheck hedge heval _ ih =>
    have hd : ¬ dState q := fun hd => hcheck (hA.data_transition q hd t ht).1
    obtain ⟨d, hdata, hdeval, w, hw⟩ := (ih hv).2 (hA.edge_transition q hd t ht).2
    have hstep : RdpqStep G A (q, n) (t.typeId, t.inverse) (d.toState, m) :=
      mem_rdpqSteps.mpr ⟨t, ht, rfl, ⟨edge, hedge, heval⟩, d, hdata, hdeval, rfl⟩
    exact ⟨fun _ => ⟨_, .cons hstep hw⟩, fun h => absurd h hd⟩

theorem exists_readsDataPath (hA : A.IsDE dState) (hu : ¬ dState u.1)
    (h : Run (RdpqStep G A) u w v) : ∃ p, ReadsDataPath G A u p v := by
  induction h with
  | nil v => exact ⟨[], .nil v⟩
  | @cons u u' v l w hstep _ ih =>
    obtain ⟨t, ht, rfl, ⟨edge, hedge, heval⟩, d, hd, hdeval, hto⟩ := mem_rdpqSteps.mp hstep
    obtain ⟨hcheck, hdata⟩ := hA.edge_transition u.1 hu t ht
    obtain ⟨hdcheck, hnext⟩ := hA.data_transition t.toState hdata d hd
    rw [hto] at hnext
    obtain ⟨p, hp⟩ := ih hnext
    have hp' : ReadsDataPath G A (d.toState, u'.2) p v := by rwa [hto]
    exact ⟨_, .edge ht hcheck hedge heval (.data hd hdcheck hdeval hp')⟩

theorem endsDataPath_iff (hA : A.IsDE dState) : EndsDataPath G A s m ↔
    ∃ t ∈ startTransitions G A s, ∃ w, Run (RdpqStep G A) (t.toState, s) w (A.finalState, m) := by
  simp only [startTransitions, List.mem_filter]
  constructor
  · intro ⟨p, hp⟩
    obtain ⟨t, ht, heval, hrun⟩ := (hp.run hA hA.final).2 hA.start
    exact ⟨t, ⟨ht, heval⟩, hrun⟩
  · intro ⟨t, ⟨ht, heval⟩, w, hw⟩
    obtain ⟨hcheck, hnext⟩ := hA.data_transition 0 hA.start t ht
    obtain ⟨p, hp⟩ := exists_readsDataPath hA hnext hw
    exact ⟨p, .data ht hcheck heval hp⟩

theorem exists_beginStates (G : PropertyModel V) (s : Nat) (visited : List SearchState)
    (ts : List (RDPQTransition V)) : ∃ news, beginStates G s visited ts = visited ++ news ∧
      (∀ r ∈ news, ∃ t ∈ ts, G.evalDataCheck s t.propertyChecks ∧ r = .root t.toState s) ∧
      (∀ t ∈ ts, G.evalDataCheck s t.propertyChecks → (t.toState, s) ∈ keys (visited ++ news)) ∧
      news.length ≤ ts.length := by
  induction ts generalizing visited with
  | nil => exact ⟨[], by simp [beginStates], by simp, by simp, le_rfl⟩
  | cons t ts ih =>
    have hcons : ∀ {news : List SearchState},
        (∀ r ∈ news, ∃ t ∈ ts, G.evalDataCheck s t.propertyChecks ∧ r = .root t.toState s) →
        ∀ r ∈ news, ∃ t' ∈ t :: ts, G.evalDataCheck s t'.propertyChecks ∧
          r = .root t'.toState s := by
      intro news hnews r hr
      obtain ⟨t', ht', hr'⟩ := hnews r hr
      exact ⟨t', List.mem_cons_of_mem t ht', hr'⟩
    rw [beginStates]
    by_cases heval : G.evalDataCheck s t.propertyChecks
    · rw [if_pos heval]
      dsimp only
      by_cases hfound : (findState visited (SearchState.root t.toState s).key).isSome
      · rw [if_pos hfound]
        obtain ⟨news, heq, hnews, hall, hlength⟩ := ih visited
        refine ⟨news, heq, hcons hnews, List.forall_mem_cons.mpr ⟨fun _ => ?_, hall⟩, ?_⟩
        · obtain ⟨r, hr, hkey⟩ := isSome_findState.mp hfound
          exact ⟨r, List.mem_append_left news hr, hkey⟩
        · exact hlength.trans (Nat.le_succ _)
      · rw [if_neg hfound]
        obtain ⟨news, heq, hnews, hall, hlength⟩ := ih (visited ++ [.root t.toState s])
        rw [List.append_assoc, List.singleton_append] at heq hall
        refine ⟨_, heq, List.forall_mem_cons.mpr ⟨?_, hcons hnews⟩,
          List.forall_mem_cons.mpr ⟨fun _ => ?_, hall⟩, Nat.succ_le_succ hlength⟩
        · exact ⟨t, List.mem_cons_self, heval, rfl⟩
        · exact ⟨.root t.toState s, by simp, rfl⟩
    · rw [if_neg heval]
      obtain ⟨news, heq, hnews, hall, hlength⟩ := ih visited
      exact ⟨news, heq, hcons hnews, List.forall_mem_cons.mpr ⟨fun h => absurd h heval, hall⟩,
        hlength.trans (Nat.le_succ _)⟩

theorem head?_beginStates (ts : List (RDPQTransition V)) : (beginStates G s [] ts).head? =
    (ts.filter fun t => G.evalDataCheck s t.propertyChecks).head?.map
      fun t => SearchState.root t.toState s := by
  induction ts with
  | nil => rfl
  | cons t ts ih =>
    rw [beginStates]
    by_cases heval : G.evalDataCheck s t.propertyChecks
    · obtain ⟨news, heq, _⟩ := exists_beginStates G s [.root t.toState s] ts
      rw [if_pos heval, List.filter_cons_of_pos (by simpa using heval)]
      simp [findState, heq]
    · rw [if_neg heval, List.filter_cons_of_neg (by simpa using heval)]
      exact ih

def rdpqVertices (G : PropertyModel V) (A : RDPQAutomaton V) : Finset (Nat × Nat) :=
  Finset.range A.rows ×ˢ G.nodes.toFinset

theorem mem_rdpqVertices : v ∈ rdpqVertices G A ↔ v.1 < A.rows ∧ v.2 ∈ G.nodes := by
  simp [rdpqVertices]

theorem rdpqSteps_vertices (hA : A.InRange) :
    ∀ x ∈ rdpqSteps G A u, x.2 ∈ rdpqVertices G A := by
  intro x hx
  obtain ⟨t, _, _, ⟨edge, hedge, _⟩, d, hd, _, hto⟩ := mem_rdpqSteps.mp hx
  rw [mem_rdpqVertices, ← hto]
  exact ⟨hA.toState_lt _ d hd, hedge.mem_nodes⟩

def rdpqFuel (G : PropertyModel V) (A : RDPQAutomaton V) : Nat :=
  2 * (A.rows * G.nodes.length) + (A.fromTo 0).length + 1

variable {current : SearchState} {rest out : List SearchState}

theorem beginStates_root (hbegin : beginStates G s [] (A.fromTo 0) = current :: rest) :
    ∀ r ∈ current :: rest, ∃ t ∈ startTransitions G A s, r = .root t.toState s := by
  obtain ⟨news, heq, hnews, -⟩ := exists_beginStates G s [] (A.fromTo 0)
  rw [hbegin, List.nil_append] at heq
  rw [heq]
  intro r hr
  obtain ⟨t, ht, heval, hroot⟩ := hnews r hr
  exact ⟨t, List.mem_filter.mpr ⟨ht, heval⟩, hroot⟩

theorem mem_keys_beginStates (ht : t ∈ startTransitions G A s) :
    (t.toState, s) ∈ keys (beginStates G s [] (A.fromTo 0)) := by
  obtain ⟨news, heq, _, hall, _⟩ := exists_beginStates G s [] (A.fromTo 0)
  obtain ⟨hrow, heval⟩ := List.mem_filter.mp ht
  rw [heq]
  exact hall t hrow heval

theorem exists_dataSearch (hA : A.InRange) (hs : s ∈ G.nodes)
    (hbegin : beginStates G s [] (A.fromTo 0) = current :: rest) :
    ∃ out, DataSearch G A (keys (current :: rest)) current (rdpqSteps G A current.key) rest out ∧
      2 * out.length + (current :: rest).length + 1 ≤ rdpqFuel G A := by
  have hU : ∀ v ∈ rdpqVertices G A, ∀ x ∈ rdpqSteps G A v, x.2 ∈ rdpqVertices G A :=
    fun _ _ => rdpqSteps_vertices hA
  have hrest : ∀ r ∈ rest, r.key ∈ rdpqVertices G A := by
    intro r hr
    obtain ⟨t, ht, rfl⟩ := beginStates_root hbegin r (List.mem_cons_of_mem current hr)
    exact mem_rdpqVertices.mpr ⟨hA.toState_lt 0 t (List.mem_filter.mp ht).1, hs⟩
  have hsearch : ∃ out,
      DataSearch G A (keys (current :: rest)) current (rdpqSteps G A current.key) rest out :=
    Search.exists_out (rdpqVertices G A) hU SearchState.key_extend_eq (rdpqSteps_vertices hA) hrest
  obtain ⟨out, h⟩ := hsearch
  have hout := h.length_le _ hU SearchState.key_extend_eq (rdpqSteps_vertices hA) hrest
  have hcard : (rdpqVertices G A).card ≤ A.rows * G.nodes.length := by
    rw [rdpqVertices, Finset.card_product, Finset.card_range]
    exact Nat.mul_le_mul_left _ (List.toFinset_card_le G.nodes)
  obtain ⟨news, heq, _, _, hlength⟩ := exists_beginStates G s [] (A.fromTo 0)
  rw [hbegin, List.nil_append] at heq
  rw [← heq] at hlength
  refine ⟨out, h, ?_⟩
  unfold rdpqFuel
  omega

/-- The vertices that are queued at first or found are those that runs from the first ones reach. -/
theorem exists_entry_iff (hbegin : beginStates G s [] (A.fromTo 0) = current :: rest)
    (h : DataSearch G A (keys (current :: rest)) current (rdpqSteps G A current.key) rest out) :
    (∃ r ∈ (current :: rest) ++ out, r.key = v) ↔
      ∃ t ∈ startTransitions G A s, ∃ w, Run (RdpqStep G A) (t.toState, s) w v := by
  constructor
  · let p : SearchState → Prop := fun r =>
      ∃ t ∈ startTransitions G A s, ∃ w, Run (RdpqStep G A) (t.toState, s) w r.key
    have hroots : ∀ r ∈ current :: rest, p r := by
      intro r hr
      obtain ⟨t, ht, rfl⟩ := beginStates_root hbegin r hr
      exact ⟨t, ht, [], .nil _⟩
    have hextend : ∀ r x, p r → x ∈ rdpqSteps G A r.key → p (r.extend x) := by
      intro r x ⟨t, ht, w, hw⟩ hx
      exact ⟨t, ht, w ++ [x.1], Run.concat_iff.mpr ⟨_, hw, hx⟩⟩
    obtain ⟨hcurrent, hrest⟩ := List.forall_mem_cons.mp hroots
    have hout := h.forall_out hextend hcurrent (List.Subset.refl _) hrest
    intro ⟨r, hr, hkey⟩
    rw [← hkey]
    exact (List.mem_append.mp hr).elim (hroots r) (hout r)
  · intro ⟨t, ht, w, hw⟩
    have hdepth : ∀ r ∈ current :: rest, r.depth = 0 := by
      intro r hr
      obtain ⟨t, _, rfl⟩ := beginStates_root hbegin r hr
      rfl
    have hzero := hdepth current List.mem_cons_self
    have hvis : ∀ v, v ∈ keys (current :: rest) →
        v ∈ (∅ : Set (Nat × Nat)) ∨ ∃ r ∈ current :: rest, r.key = v := fun v hv => .inr hv
    obtain ⟨hsteps, hall⟩ := h.successors_within SearchState.key_extend_eq
      SearchState.depth_extend hvis
      (fun r hr => by rw [hdepth r hr]; exact Nat.zero_le _)
      (fun r hr => ⟨List.mem_cons_of_mem current hr, by rw [hzero]; exact Nat.zero_le _⟩)
      (List.pairwise_of_forall_mem_list fun r hr r' _ => by
        rw [hdepth r (List.mem_cons_of_mem current hr)]
        exact Nat.zero_le _)
    have hclosed : ∀ r ∈ (current :: rest) ++ out, ∀ x ∈ rdpqSteps G A r.key,
        ∃ r' ∈ (current :: rest) ++ out, r'.key = x.2 := by
      intro r hr x hx
      have hwithin : x.2 ∈ (∅ : Set (Nat × Nat)) ∨ Search.Within SearchState.key SearchState.depth
          ((current :: rest) ++ out) (r.depth + 1) x.2 := by
        rcases List.mem_cons.mp hr with rfl | hr
        · exact hsteps x hx
        · exact hall r hr x hx
      obtain ⟨r', hr', hkey, _⟩ := hwithin.resolve_left (Set.notMem_empty _)
      exact ⟨r', hr', hkey⟩
    -- along the run, one entry for each step
    induction w using List.reverseRecOn generalizing v with
    | nil =>
      obtain ⟨r, hr, hkey⟩ := mem_keys_beginStates ht
      rw [hbegin] at hr
      exact ⟨r, List.mem_append_left out hr, hkey.trans (Run.nil_iff.mp hw)⟩
    | append_singleton w l ih =>
      obtain ⟨u, hu, hstep⟩ := Run.concat_iff.mp hw
      obtain ⟨r, hr, rfl⟩ := ih hu
      exact hclosed r hr _ hstep

end

end Paths
end MillenniumDB
