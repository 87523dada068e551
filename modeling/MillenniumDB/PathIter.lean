import MillenniumDB.QuadModel

/-!
# The shared path iterators of `AllShortest`

A state of the all-shortest search keeps one `PathIter`: the transitions by which it was
reached at its distance, and a cursor into them.  The iterators share their tails: `next` of
a state moves the cursor of a previous state before its own.  `Positioned` relates the
cursors below a state to one of its paths and to the paths that are still to come.
-/

namespace MillenniumDB
namespace Paths
namespace AllShortest

/-- `IterTransition`; the previous state is named by its key. -/
structure IterTransition where
  previous : Nat × Nat
  inverseDirection : Bool
  typeId : Nat
  deriving DecidableEq, Repr

def IterTransition.label (e : IterTransition) : EdgeLabel := (e.typeId, e.inverseDirection)

/-- `PathIter`: the list between `begin` and `end`, and the position of `current` in it. -/
structure PathIter where
  transitions : List IterTransition := []
  current : Option Nat := none

/-- The mutable `path_iter` of every state, by the key of the state. -/
abbrev Iters := Nat × Nat → PathIter

abbrev ProductPath := List (EdgeLabel × Nat × Nat)

def walkOf (p : ProductPath) : List (EdgeLabel × Nat) := p.map fun x => (x.1, x.2.2)

/-- `PathIter::add` for one state. -/
def addTransition (h : Iters) (k : Nat × Nat) (e : IterTransition) : Iters :=
  Function.update h k { h k with transitions := (h k).transitions ++ [e] }

def setCurrent (h : Iters) (k : Nat × Nat) (c : Option Nat) : Iters :=
  Function.update h k { h k with current := c }

/-- `PathIter::next`.  The recursion goes one level up at each call. -/
def pathNext : Nat → Iters → Nat × Nat → Bool × Iters
  | 0, h, _ => (false, h)
  | fuel + 1, h, k =>
    match (h k).transitions with
    | [] => (false, h)
    | first :: _ =>
      match (h k).current with
      | none => (true, (pathNext fuel (setCurrent h k (some 0)) first.previous).2)
      | some i =>
        let moved := pathNext fuel h ((h k).transitions.getD i first).previous
        if moved.1 then (true, moved.2)
        else
          match (h k).transitions[i + 1]? with
          | none => (false, setCurrent moved.2 k none)
          | some e => (true, (pathNext fuel (setCurrent moved.2 k (some (i + 1))) e.previous).2)

/-- `PathIter::start_enumeration`: from the second level on, only the last transition. -/
def startEnumeration (h : Iters) (k : Nat × Nat) : Iters :=
  match (h k).transitions with
  | [] => h
  | first :: _ =>
    if (h first.previous).transitions = [] then h
    else setCurrent h k (some ((h k).transitions.length - 1))

/-- `PathIter::get_path`, from the start on. -/
def getPath : Nat → Iters → Nat × Nat → ProductPath
  | 0, _, _ => []
  | fuel + 1, h, k =>
    match (h k).transitions, (h k).current with
    | first :: _, some i =>
      let e := (h k).transitions.getD i first
      getPath fuel h e.previous ++ [(e.label, k)]
    | _, _ => []

/-- The paths that lead to a state at distance `n`, in the order of the transitions. -/
def pathsTo (h : Iters) : Nat → Nat × Nat → List ProductPath
  | 0, _ => [[]]
  | n + 1, k => (h k).transitions.flatMap fun e => (pathsTo h n e.previous).map (· ++ [(e.label, k)])

/-- No cursor is set on the states nearer than `n`. -/
def Reset (D : Nat × Nat → Nat) (h : Iters) (n : Nat) : Prop := ∀ u, D u < n → (h u).current = none

/-- The cursors from a state at distance `n` down spell the path `p`, behind which the paths
`rest` are to come. -/
def Positioned (D : Nat × Nat → Nat) (h : Iters) : Nat → Nat × Nat → ProductPath → List ProductPath → Prop
  | 0, k, p, rest => p = [] ∧ rest = [] ∧ (h k).current = none
  | n + 1, k, p, rest => ∃ i e p' rest', (h k).current = some i ∧ (h k).transitions[i]? = some e ∧
      Positioned D h n e.previous p' rest' ∧ (∀ u, D u = n → u ≠ e.previous → (h u).current = none) ∧
      p = p' ++ [(e.label, k)] ∧
      rest = rest'.map (· ++ [(e.label, k)]) ++ ((h k).transitions.drop (i + 1)).flatMap
        fun e => (pathsTo h n e.previous).map (· ++ [(e.label, k)])

/-- The transitions of the live states lead one level up, and only the start level has none. -/
structure Layered (D : Nat × Nat → Nat) (h : Iters) (live : Set (Nat × Nat)) : Prop where
  nil_iff : ∀ k ∈ live, (h k).transitions = [] ↔ D k = 0
  previous : ∀ k ∈ live, ∀ e ∈ (h k).transitions, e.previous ∈ live ∧ D e.previous + 1 = D k

section

variable {D : Nat × Nat → Nat} {h h' : Iters} {live : Set (Nat × Nat)} {k : Nat × Nat}
  {n fuel i : Nat} {p q : ProductPath} {rest : List ProductPath} {e : IterTransition}

@[simp] theorem transitions_setCurrent {c : Option Nat} (u : Nat × Nat) :
    (setCurrent h k c u).transitions = (h u).transitions := by
  unfold setCurrent
  by_cases hu : u = k
  · subst hu
    simp
  · simp [hu]

@[simp] theorem current_setCurrent_self {c : Option Nat} : (setCurrent h k c k).current = c := by
  simp [setCurrent]

theorem setCurrent_of_ne {c : Option Nat} {u : Nat × Nat} (hu : u ≠ k) : setCurrent h k c u = h u := by
  simp [setCurrent, hu]

theorem pathsTo_congr (ht : ∀ u, (h' u).transitions = (h u).transitions) (n : Nat) (k : Nat × Nat) :
    pathsTo h' n k = pathsTo h n k := by
  induction n generalizing k with
  | zero => rfl
  | succ n ih => simp only [pathsTo, ht, ih]

theorem Layered.congr (hl : Layered D h live) (ht : ∀ u, (h' u).transitions = (h u).transitions) :
    Layered D h' live where
  nil_iff k hk := by rw [ht, hl.nil_iff k hk]
  previous k hk e he := hl.previous k hk e (ht k ▸ he)

/-- What a call for a state at distance `n` may change: cursors of nearer states and its own. -/
structure Untouched (D : Nat × Nat → Nat) (h h' : Iters) (n : Nat) (k : Nat × Nat) : Prop where
  transitions : ∀ u, (h' u).transitions = (h u).transitions
  other : ∀ u, n ≤ D u → u ≠ k → h' u = h u

theorem Untouched.refl (h : Iters) (n : Nat) (k : Nat × Nat) : Untouched D h h n k :=
  ⟨fun _ => rfl, fun _ _ _ => rfl⟩

theorem Untouched.setCurrent (c : Option Nat) : Untouched D h (setCurrent h k c) n k :=
  ⟨fun _ => transitions_setCurrent _, fun _ _ hu => setCurrent_of_ne hu⟩

theorem Untouched.trans {h'' : Iters} (h₁ : Untouched D h h' n k) (h₂ : Untouched D h' h'' n k) :
    Untouched D h h'' n k :=
  ⟨fun u => (h₂.transitions u).trans (h₁.transitions u),
    fun u hu hne => (h₂.other u hu hne).trans (h₁.other u hu hne)⟩

theorem Untouched.previous {u : Nat × Nat} (hD : D u < n) (hu : Untouched D h h' (D u) u) :
    Untouched D h h' n k :=
  ⟨hu.transitions, fun v hv _ => hu.other v (by omega) (by rintro rfl; omega)⟩

structure NextSpec (D : Nat × Nat → Nat) (h : Iters) (n : Nat) (k : Nat × Nat)
    (moved : Bool × Iters) : Prop where
  untouched : Untouched D h moved.2 n k
  start : (h k).current = none → Reset D h n → (moved.1 = true ↔ n ≠ 0) ∧
    ∃ p rest, pathsTo h n k = p :: rest ∧ Positioned D moved.2 n k p rest
  move : ∀ p q rest, Positioned D h n k p (q :: rest) →
    moved.1 = true ∧ Positioned D moved.2 n k q rest
  finish : ∀ p, Positioned D h n k p [] →
    moved.1 = false ∧ (moved.2 k).current = none ∧ Reset D moved.2 n

/-- The cursor of a state enters its `i`-th transition, whose previous state starts over. -/
theorem positioned_enter (hl : Layered D h live) (hk : k ∈ live) (hD : D k = n + 1)
    (he : (h k).transitions[i]? = some e) (hreset : Reset D h (n + 1))
    {moved : Bool × Iters} (hmoved : NextSpec D (AllShortest.setCurrent h k (some i)) n e.previous moved) :
    ∃ p rest, pathsTo h n e.previous = p :: rest ∧
      Positioned D moved.2 (n + 1) k (p ++ [(e.label, k)]) (rest.map (· ++ [(e.label, k)]) ++
        ((h k).transitions.drop (i + 1)).flatMap
          fun e => (pathsTo h n e.previous).map (· ++ [(e.label, k)])) := by
  obtain ⟨hlive, hDe⟩ := hl.previous k hk e (List.mem_of_getElem? he)
  have hDe' : D e.previous = n := by omega
  have hne : ∀ u, D u < n + 1 → u ≠ k := by
    rintro u hu rfl
    omega
  have hreset' : Reset D (AllShortest.setCurrent h k (some i)) (n + 1) := fun u hu => by
    rw [setCurrent_of_ne (hne u hu)]
    exact hreset u hu
  obtain ⟨-, p, rest, hpaths, hpos⟩ := hmoved.start (hreset' _ (by omega))
    fun u hu => hreset' u (by omega)
  have htrans : ∀ u, (moved.2 u).transitions = (h u).transitions := fun u =>
    (hmoved.untouched.transitions u).trans (transitions_setCurrent u)
  have hself : moved.2 k = AllShortest.setCurrent h k (some i) k :=
    hmoved.untouched.other k (by omega) (hne _ (by omega)).symm
  refine ⟨p, rest, ?_, i, e, p, rest, by rw [hself, current_setCurrent_self], by rw [htrans, he],
    hpos, fun u hu hue => ?_, rfl, ?_⟩
  · rw [← hpaths]
    exact (pathsTo_congr (fun _ => transitions_setCurrent _) n _).symm
  · rw [hmoved.untouched.other u (by omega) hue]
    exact hreset' u (by omega)
  · rw [htrans]
    simp only [pathsTo_congr htrans]

/-- Without a cursor the call enters the first transition. -/
theorem nextSpec_first (hl : Layered D h live) (hk : k ∈ live) (hD : D k = n + 1)
    (hcur : (h k).current = none) {first : IterTransition} {others : List IterTransition}
    (htrans : (h k).transitions = first :: others) {moved : Bool × Iters}
    (hmoved : NextSpec D (setCurrent h k (some 0)) n first.previous moved) :
    NextSpec D h (n + 1) k (true, moved.2) := by
  have hfirst : (h k).transitions[0]? = some first := by rw [htrans]; rfl
  obtain ⟨-, hDe⟩ := hl.previous k hk first (List.mem_of_getElem? hfirst)
  have hnone : ∀ p rest, ¬ Positioned D h (n + 1) k p rest := by
    rintro p rest ⟨i, -, -, -, hi, -⟩
    rw [hcur] at hi
    cases hi
  refine ⟨(Untouched.setCurrent (some 0)).trans (.previous (u := first.previous) (by omega) ?_),
    fun _ hreset => ⟨by simp, ?_⟩, fun p q rest hp => absurd hp (hnone p _),
    fun p hp => absurd hp (hnone p _)⟩
  · rw [show D first.previous = n by omega]
    exact hmoved.untouched
  · obtain ⟨p, rest, hpaths, hpos⟩ := positioned_enter hl hk hD hfirst hreset hmoved
    refine ⟨_, _, ?_, hpos⟩
    rw [pathsTo, htrans, List.flatMap_cons, hpaths]
    rfl

/-- The cursor of a state is at the transition `e`, and the call for its previous state was made. -/
structure Stepped (D : Nat × Nat → Nat) (h : Iters) (live : Set (Nat × Nat)) (n : Nat)
    (k : Nat × Nat) (i : Nat) (e : IterTransition) (moved : Bool × Iters) : Prop where
  layered : Layered D h live
  mem_live : k ∈ live
  level : D k = n + 1
  current : (h k).current = some i
  mem : e ∈ (h k).transitions
  cursor : ∀ e', (h k).transitions[i]? = some e' → e' = e
  moved : NextSpec D h n e.previous moved

namespace Stepped

variable {moved : Bool × Iters} {e' : IterTransition}

theorem level_previous (hs : Stepped D h live n k i e moved) : D e.previous = n := by
  have := (hs.layered.previous k hs.mem_live e hs.mem).2
  have := hs.level
  omega

theorem untouched (hs : Stepped D h live n k i e moved) : Untouched D h moved.2 (n + 1) k := by
  have hD := hs.level_previous
  exact .previous (u := e.previous) (by omega) (by rw [hD]; exact hs.moved.untouched)

theorem self (hs : Stepped D h live n k i e moved) : moved.2 k = h k := by
  have hlevel := hs.level
  have hD := hs.level_previous
  exact hs.moved.untouched.other k (by omega) (by
    rintro rfl
    omega)

theorem positioned (hs : Stepped D h live n k i e moved) (hp : Positioned D h (n + 1) k p rest) :
    (h k).transitions[i]? = some e ∧ ∃ p' rest', Positioned D h n e.previous p' rest' ∧
      (∀ u, D u = n → u ≠ e.previous → (h u).current = none) ∧
      rest = rest'.map (· ++ [(e.label, k)]) ++ ((h k).transitions.drop (i + 1)).flatMap
        fun e => (pathsTo h n e.previous).map (· ++ [(e.label, k)]) := by
  obtain ⟨j, e', p', rest', hj, he, hpos, hother, -, hrest⟩ := hp
  obtain rfl : i = j := Option.some_inj.mp (hs.current.symm.trans hj)
  obtain rfl := hs.cursor e' he
  exact ⟨he, p', rest', hpos, hother, hrest⟩

theorem used (hs : Stepped D h live n k i e moved) (hfalse : moved.1 ≠ true)
    (hp : Positioned D h (n + 1) k p rest) : Reset D moved.2 (n + 1) ∧
      rest = ((h k).transitions.drop (i + 1)).flatMap
        fun e => (pathsTo h n e.previous).map (· ++ [(e.label, k)]) := by
  obtain ⟨-, p', rest', hpos, hother, hrest⟩ := hs.positioned hp
  cases rest' with
  | nil =>
    refine ⟨fun u hu => ?_, hrest⟩
    obtain ⟨-, hcur, hreset⟩ := hs.moved.finish p' hpos
    by_cases hlt : D u < n
    · exact hreset u hlt
    · by_cases hue : u = e.previous
      · exact hue ▸ hcur
      · rw [hs.moved.untouched.other u (by omega) hue]
        exact hother u (by omega) hue
  | cons q' rest' => exact absurd (hs.moved.move p' q' rest' hpos).1 hfalse

theorem not_none (hs : Stepped D h live n k i e moved) : (h k).current ≠ none := by
  rw [hs.current]
  exact Option.some_ne_none i

/-- The previous state had another path. -/
theorem nextSpec_moved (hs : Stepped D h live n k i e moved) (hmoved : moved.1 = true) :
    NextSpec D h (n + 1) k (true, moved.2) := by
  refine ⟨hs.untouched, fun hnone _ => absurd hnone hs.not_none, fun p q rest hp => ⟨rfl, ?_⟩,
    fun p hp => ?_⟩
  · obtain ⟨he, p', rest', hpos, hother, hrest⟩ := hs.positioned hp
    cases rest' with
    | nil =>
      rw [(hs.moved.finish p' hpos).1] at hmoved
      cases hmoved
    | cons q' rest' =>
      rw [List.map_cons, List.cons_append] at hrest
      obtain ⟨rfl, rfl⟩ := List.cons.inj hrest
      refine ⟨i, e, q', rest', by rw [hs.self, hs.current], by rw [hs.self, he],
        (hs.moved.move p' q' rest' hpos).2, fun u hu hne => ?_, rfl, ?_⟩
      · rw [hs.moved.untouched.other u (by omega) hne]
        exact hother u hu hne
      · rw [hs.self]
        simp only [pathsTo_congr hs.moved.untouched.transitions]
  · obtain ⟨-, p', rest', hpos, -, hrest⟩ := hs.positioned hp
    cases rest' with
    | nil =>
      rw [(hs.moved.finish p' hpos).1] at hmoved
      cases hmoved
    | cons q' rest' => simp at hrest

/-- The transition was the last one, and the cursor is given up. -/
theorem nextSpec_last (hs : Stepped D h live n k i e moved) (hfalse : moved.1 ≠ true)
    (hi : (h k).transitions[i + 1]? = none) :
    NextSpec D h (n + 1) k (false, setCurrent moved.2 k none) := by
  have hdrop : (h k).transitions.drop (i + 1) = [] := by
    simpa using List.getElem?_eq_none_iff.mp hi
  have hlevel := hs.level
  refine ⟨hs.untouched.trans (.setCurrent none), fun hnone _ => absurd hnone hs.not_none,
    fun p q rest hp => ?_, fun p hp => ⟨rfl, current_setCurrent_self, fun u hu => ?_⟩⟩
  · have hrest := (hs.used hfalse hp).2
    rw [hdrop] at hrest
    exact absurd hrest (by simp)
  · show (setCurrent moved.2 k none u).current = none
    rw [setCurrent_of_ne (by rintro rfl; omega)]
    exact (hs.used hfalse hp).1 u hu

theorem nextSpec_next (hs : Stepped D h live n k i e moved) (hfalse : moved.1 ≠ true)
    (hi : (h k).transitions[i + 1]? = some e') {entered : Bool × Iters}
    (hspec : NextSpec D (setCurrent moved.2 k (some (i + 1))) n e'.previous entered) :
    NextSpec D h (n + 1) k (true, entered.2) := by
  have hentered : (moved.2 k).transitions[i + 1]? = some e' := by rw [hs.self, hi]
  have hdrop : (h k).transitions.drop (i + 1) = e' :: (h k).transitions.drop (i + 2) :=
    (List.drop_eq_getElem?_toList_append).trans (by rw [hi]; rfl)
  obtain ⟨-, hDe⟩ := hs.layered.previous k hs.mem_live e' (List.mem_of_getElem? hi)
  have hlevel := hs.level
  have hsame := hs.moved.untouched.transitions
  have henter : ∀ p rest, Positioned D h (n + 1) k p rest → ∃ p' rest',
      rest = (p' :: rest').map (· ++ [(e'.label, k)]) ++ ((h k).transitions.drop (i + 2)).flatMap
        (fun e => (pathsTo h n e.previous).map (· ++ [(e.label, k)])) ∧
      Positioned D entered.2 (n + 1) k (p' ++ [(e'.label, k)]) (rest'.map (· ++ [(e'.label, k)]) ++
        ((h k).transitions.drop (i + 2)).flatMap
          fun e => (pathsTo h n e.previous).map (· ++ [(e.label, k)])) := by
    intro p rest hp
    obtain ⟨hreset, hrest⟩ := hs.used hfalse hp
    obtain ⟨p', rest', hpaths, hpos⟩ :=
      positioned_enter (hs.layered.congr hsame) hs.mem_live hlevel hentered hreset hspec
    rw [pathsTo_congr hsame] at hpaths
    rw [hdrop, List.flatMap_cons, hpaths] at hrest
    rw [hs.self] at hpos
    exact ⟨p', rest', hrest, by simpa only [pathsTo_congr hsame] using hpos⟩
  refine ⟨hs.untouched.trans ((Untouched.setCurrent (some (i + 1))).trans
      (.previous (u := e'.previous) (by omega) ?_)),
    fun hnone _ => absurd hnone hs.not_none, fun p q rest hp => ⟨rfl, ?_⟩, fun p hp => ?_⟩
  · rw [show D e'.previous = n by omega]
    exact hspec.untouched
  · obtain ⟨p', rest', hrest, hpos⟩ := henter p _ hp
    rw [List.map_cons, List.cons_append] at hrest
    obtain ⟨rfl, rfl⟩ := List.cons.inj hrest
    exact hpos
  · obtain ⟨p', rest', hrest, -⟩ := henter p _ hp
    exact absurd hrest (by simp)

end Stepped

/-- `PathIter::next` walks through the paths of its state. -/
theorem pathNext_spec (hl : Layered D h live) (hk : k ∈ live) (hD : D k = n) (hfuel : n < fuel) :
    NextSpec D h n k (pathNext fuel h k) := by
  induction n generalizing h k fuel with
  | zero =>
    obtain ⟨fuel, rfl⟩ : ∃ m, fuel = m + 1 := ⟨fuel - 1, by omega⟩
    have hnext : pathNext (fuel + 1) h k = (false, h) := by
      rw [pathNext, (hl.nil_iff k hk).mpr hD]
    rw [hnext]
    refine ⟨.refl h 0 k, fun hcur _ => ⟨by simp, [], [], rfl, rfl, rfl, hcur⟩,
      fun p q rest hp => ?_, fun p hp => ⟨rfl, hp.2.2, fun u hu => absurd hu (Nat.not_lt_zero _)⟩⟩
    exact absurd hp.2.1 (by simp)
  | succ n ih =>
    obtain ⟨fuel, rfl⟩ : ∃ m, fuel = m + 1 := ⟨fuel - 1, by omega⟩
    have hcalled : ∀ {h' : Iters} {e : IterTransition}, (∀ u, (h' u).transitions = (h u).transitions) →
        e ∈ (h k).transitions → NextSpec D h' n e.previous (pathNext fuel h' e.previous) := by
      intro h' e hsame he
      obtain ⟨hlive, hDe⟩ := hl.previous k hk e he
      exact ih (hl.congr hsame) hlive (by omega) (by omega)
    cases htrans : (h k).transitions with
    | nil => exact absurd ((hl.nil_iff k hk).mp htrans) (by omega)
    | cons first others =>
      have hfirst : first ∈ (h k).transitions := by
        rw [htrans]
        exact List.mem_cons_self
      cases hcur : (h k).current with
      | none =>
        rw [pathNext, htrans, hcur]
        exact nextSpec_first hl hk hD hcur htrans (hcalled transitions_setCurrent hfirst)
      | some i =>
        have hmem : (h k).transitions.getD i first ∈ (h k).transitions := by
          rw [List.getD_eq_getElem?_getD]
          cases hi : (h k).transitions[i]? with
          | none => exact hfirst
          | some e => exact List.mem_of_getElem? hi
        have hs := Stepped.mk hl hk hD hcur hmem (fun e he => by
          rw [List.getD_eq_getElem?_getD, he, Option.getD_some]) (hcalled (fun _ => rfl) hmem)
        rw [pathNext, htrans]
        simp only [hcur]
        rw [← htrans]
        by_cases hmoved : (pathNext fuel h ((h k).transitions.getD i first).previous).1 = true
        · rw [if_pos hmoved]
          exact hs.nextSpec_moved hmoved
        · rw [if_neg hmoved]
          cases hi : (h k).transitions[i + 1]? with
          | none => exact hs.nextSpec_last hmoved hi
          | some e =>
            exact hs.nextSpec_next hmoved hi (hcalled
              (fun u => (transitions_setCurrent u).trans (hs.untouched.transitions u))
              (List.mem_of_getElem? hi))

/-- `get_path` reads off the path that the cursors spell. -/
theorem getPath_eq (hl : Layered D h live) (hk : k ∈ live) (hD : D k = n) (hfuel : n < fuel)
    (hp : Positioned D h n k p rest) : getPath fuel h k = p := by
  induction n generalizing k p rest fuel with
  | zero =>
    obtain ⟨fuel, rfl⟩ : ∃ m, fuel = m + 1 := ⟨fuel - 1, by omega⟩
    rw [getPath, (hl.nil_iff k hk).mpr hD]
    exact hp.1.symm
  | succ n ih =>
    obtain ⟨fuel, rfl⟩ : ∃ m, fuel = m + 1 := ⟨fuel - 1, by omega⟩
    obtain ⟨i, e, p', rest', hcur, he, hpos, -, rfl, -⟩ := hp
    obtain ⟨hlive, hDe⟩ := hl.previous k hk e (List.mem_of_getElem? he)
    cases htrans : (h k).transitions with
    | nil => exact absurd ((hl.nil_iff k hk).mp htrans) (by omega)
    | cons first others =>
      have hget : (first :: others).getD i first = e := by
        rw [List.getD_eq_getElem?_getD, ← htrans, he, Option.getD_some]
      rw [getPath]
      simp only [htrans, hcur, hget]
      rw [ih hlive (by omega) (by omega) hpos]

/-- The paths that an enumeration runs through after a transition to `k` was added: from the
second level on, the ones by the new transition, and on the first level all of them. -/
def enumerated (h : Iters) (n : Nat) (k : Nat × Nat) : List ProductPath :=
  if n = 0 then pathsTo h 1 k
  else (h k).transitions.getLast?.elim [] fun e => (pathsTo h n e.previous).map (· ++ [(e.label, k)])

/-- The first call of `next` after `start_enumeration`. -/
theorem pathNext_startEnumeration (hl : Layered D h live) (hk : k ∈ live) (hD : D k = n + 1)
    (hfuel : n + 1 < fuel) (hcur : (h k).current = none) (hreset : Reset D h (n + 1)) :
    Untouched D h (pathNext fuel (startEnumeration h k) k).2 (n + 1) k ∧
      (pathNext fuel (startEnumeration h k) k).1 = true ∧ ∃ p rest, enumerated h n k = p :: rest ∧
        Positioned D (pathNext fuel (startEnumeration h k) k).2 (n + 1) k p rest := by
  obtain ⟨fuel, rfl⟩ : ∃ m, fuel = m + 1 := ⟨fuel - 1, by omega⟩
  cases htrans : (h k).transitions with
  | nil => exact absurd ((hl.nil_iff k hk).mp htrans) (by omega)
  | cons first others =>
    obtain ⟨hlive, hDe⟩ := hl.previous k hk first (by rw [htrans]; exact List.mem_cons_self)
    by_cases hzero : n = 0
    · -- above the start there is one path for each transition, and the first one comes first
      subst hzero
      have hstart : startEnumeration h k = h := by
        have hnil := (hl.nil_iff _ hlive).mpr (by omega)
        simp [startEnumeration, htrans, hnil]
      have hspec := pathNext_spec hl hk hD hfuel
      rw [hstart]
      obtain ⟨hmoved, hpaths⟩ := hspec.start hcur hreset
      exact ⟨hspec.untouched, hmoved.mpr (by omega), by simpa [enumerated] using hpaths⟩
    · -- else the cursor is put on the new transition, which is the last one
      have hnonempty : (h first.previous).transitions ≠ [] := fun hnil =>
        hzero (by have := (hl.nil_iff _ hlive).mp hnil; omega)
      obtain ⟨e, he⟩ : ∃ e, (h k).transitions.getLast? = some e := by
        cases hlast : (h k).transitions.getLast? with
        | none => simp [List.getLast?_eq_none_iff.mp hlast] at htrans
        | some e => exact ⟨e, rfl⟩
      have hget : (h k).transitions[(h k).transitions.length - 1]? = some e := by
        rw [← he, List.getLast?_eq_getElem?]
      obtain ⟨hliveE, hDE⟩ := hl.previous k hk e (List.mem_of_getElem? hget)
      have hstart : startEnumeration h k =
          setCurrent h k (some ((h k).transitions.length - 1)) := by
        unfold startEnumeration
        rw [htrans]
        simp only [if_neg hnonempty]
      have hdrop : (h k).transitions.drop ((h k).transitions.length - 1 + 1) = [] := by
        apply List.drop_eq_nil_of_le
        omega
      rw [hstart]
      generalize (h k).transitions.length - 1 = i at hget hdrop
      have hl' : Layered D (setCurrent h k (some i)) live :=
        hl.congr fun _ => transitions_setCurrent _
      have hfuel' : D e.previous < fuel := by omega
      have hspec := pathNext_spec hl' hliveE rfl hfuel'
      have hreset' : Reset D (setCurrent h k (some i)) (n + 1) := fun u hu => by
        rw [setCurrent_of_ne (by rintro rfl; omega)]
        exact hreset u hu
      have hmoved := ((hspec.start (hreset' _ (by omega)) fun u hu => hreset' u (by omega)).1).mpr
        (by omega)
      have hnext : pathNext (fuel + 1) (setCurrent h k (some i)) k =
          (true, (pathNext fuel (setCurrent h k (some i)) e.previous).2) := by
        have hgetD : (first :: others).getD i first = e := by
          rw [List.getD_eq_getElem?_getD, ← htrans, hget, Option.getD_some]
        rw [pathNext]
        simp only [transitions_setCurrent, htrans, current_setCurrent_self, hgetD, hmoved, if_true]
      rw [hnext]
      have hDE' : D e.previous = n := by omega
      rw [hDE'] at hspec
      obtain ⟨p, rest, hpaths, hpos⟩ := positioned_enter hl hk hD hget hreset hspec
      refine ⟨(Untouched.setCurrent _).trans
        (.previous (u := e.previous) (by omega) (by rw [hDE']; exact hspec.untouched)), rfl,
        p ++ [(e.label, k)], rest.map (· ++ [(e.label, k)]), ?_, ?_⟩
      · rw [enumerated, if_neg hzero, he, Option.elim_some, hpaths, List.map_cons]
      · simpa only [hdrop, List.flatMap_nil, List.append_nil] using hpos

end

end AllShortest
end Paths
end MillenniumDB
