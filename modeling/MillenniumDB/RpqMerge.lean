import MillenniumDB.RpqBase

/-!
# Merging states

`delete_mergeable_states` merges a state with the only state it is silently entered from,
or with the only state it silently leads to, until no state qualifies.  `merge_states`
moves the transitions of one state to another; in terms of edges it is a quotient.
-/

namespace MillenniumDB
namespace RPQAutomaton

/-- A transition out of the merged state, moved to `destiny`. -/
def redirectOut (destiny : Nat) (t : Transition) : Transition :=
  ⟨destiny, if t.fromState = t.toState then destiny else t.toState, t.type, t.inverse, 0⟩

/-- A transition into the merged state, moved to `destiny`. -/
def redirectIn (destiny : Nat) (t : Transition) : Transition :=
  ⟨if t.fromState = t.toState then destiny else t.fromState, destiny, t.type, t.inverse, 0⟩

def eraseRow (rows : Nat → List Transition) (i : Nat) (t : Transition) : Nat → List Transition :=
  fun j => if j = i then (rows j).erase t else rows j

def clearRow (rows : Nat → List Transition) (i : Nat) : Nat → List Transition :=
  fun j => if j = i then [] else rows j

/-- One round of the first loop of `merge_states`. -/
def moveOut (destiny : Nat) (A : RPQAutomaton) (t : Transition) : RPQAutomaton :=
  let B := A.addTransition (redirectOut destiny t)
  { B with toFrom := eraseRow B.toFrom t.toState t }

/-- One round of the second loop of `merge_states`. -/
def moveIn (destiny : Nat) (A : RPQAutomaton) (t : Transition) : RPQAutomaton :=
  let B := A.addTransition (redirectIn destiny t)
  { B with fromTo := eraseRow B.fromTo t.fromState t }

def mergeStates (A : RPQAutomaton) (destiny source : Nat) : RPQAutomaton :=
  let ends := if source ∈ A.endStates then setInsert destiny A.endStates else A.endStates
  let B := (A.fromTo source).foldl (moveOut destiny) (A.withEndStates ends)
  let C := (B.toFrom source).foldl (moveIn destiny) B
  { C with fromTo := clearRow C.fromTo source, toFrom := clearRow C.toFrom source }

/-- The first test of the loop: `s` is only entered from one other state, silently. -/
def mergeEntered (A : RPQAutomaton) (s : Nat) : Option RPQAutomaton :=
  match A.toFrom s with
  | [t] =>
    if t.type.isEmpty ∧ t.fromState ≠ s then
      -- the start state is never the one deleted
      some (if t.fromState = 0 then A.mergeStates t.fromState s else A.mergeStates s t.fromState)
    else none
  | _ => none

/-- The second test of the loop: `s` only leads to one other state, silently. -/
def mergeLeft (A : RPQAutomaton) (s : Nat) : Option RPQAutomaton :=
  match A.fromTo s with
  | [t] =>
    if t.type.isEmpty ∧ t.toState ≠ s then
      some (if t.toState = 0 then A.mergeStates t.toState s else A.mergeStates s t.toState)
    else none
  | _ => none

/-- The first test, which sets the flag `has_changes` when it merges. -/
def enteredStep (A : RPQAutomaton × Bool) (s : Nat) : RPQAutomaton × Bool :=
  match A.1.mergeEntered s with
  | some B => (B, true)
  | none => A

def leftStep (A : RPQAutomaton × Bool) (s : Nat) : RPQAutomaton × Bool :=
  match A.1.mergeLeft s with
  | some B => (B, true)
  | none => A

/-- One round of the `for` loop. -/
def mergeRound (A : RPQAutomaton × Bool) (s : Nat) : RPQAutomaton × Bool :=
  leftStep (enteredStep A s) s

def mergePass (A : RPQAutomaton) : RPQAutomaton × Bool :=
  (List.range A.rows).foldl mergeRound (A, false)

/-- The `while` loop, for at most `fuel` passes. -/
def mergePasses : Nat → RPQAutomaton → RPQAutomaton
  | 0, A => A
  | fuel + 1, A => if A.mergePass.2 then mergePasses fuel A.mergePass.1 else A.mergePass.1

/-- `delete_mergeable_states`; a pass that changes something deletes a state. -/
def deleteMergeableStates (A : RPQAutomaton) : RPQAutomaton := mergePasses (A.rows + 1) A

/-- Merging the start with the state it is entered from is right when that state has no
transition of its own: each one goes back to the start or is also one of the start. -/
def EnteredHarmless (A : RPQAutomaton) (s : Nat) : Prop :=
  s = 0 → ∀ t ∈ A.toFrom 0, (t.fromState ∈ A.endStates → 0 ∈ A.endStates) ∧
    ∀ u ∈ A.fromTo t.fromState,
      (u.type.isEmpty ∧ (u.toState = 0 ∨ u.toState = t.fromState)) ∨
        ∃ v ∈ A.fromTo 0, v.toState = u.toState ∧ v.label = u.label

/-- Merging an end state with its successor is right when the successor silently reaches an
end state too, or is entered from nowhere else. -/
def LeftHarmless (A : RPQAutomaton) (s : Nat) : Prop :=
  s ∈ A.endStates → ∀ t ∈ A.fromTo s,
    t.toState ∈ A.endStates ∨ (∃ e ∈ A.epsilonClosure t.toState, e ∈ A.endStates) ∨
      (t.toState ≠ 0 ∧ ∀ u ∈ A.toFrom t.toState,
        u.fromState = s ∨ (u.type.isEmpty ∧ u.fromState = t.toState))

instance (A : RPQAutomaton) (s : Nat) : Decidable (A.EnteredHarmless s) :=
  inferInstanceAs (Decidable (s = 0 → ∀ t ∈ A.toFrom 0, _ ∧ ∀ u ∈ A.fromTo t.fromState,
    (u.type.isEmpty ∧ (u.toState = 0 ∨ u.toState = t.fromState)) ∨
      ∃ v ∈ A.fromTo 0, v.toState = u.toState ∧ v.label = u.label))

instance (A : RPQAutomaton) (s : Nat) : Decidable (A.LeftHarmless s) :=
  inferInstanceAs (Decidable (s ∈ A.endStates → ∀ t ∈ A.fromTo s, t.toState ∈ A.endStates ∨
    (∃ e ∈ A.epsilonClosure t.toState, e ∈ A.endStates) ∨
      (t.toState ≠ 0 ∧ ∀ u ∈ A.toFrom t.toState,
        u.fromState = s ∨ (u.type.isEmpty ∧ u.fromState = t.toState))))

def RoundHarmless (A : RPQAutomaton × Bool) (s : Nat) : Prop :=
  ((A.1.mergeEntered s).isSome → A.1.EnteredHarmless s) ∧
    (((enteredStep A s).1.mergeLeft s).isSome → (enteredStep A s).1.LeftHarmless s)

instance (A : RPQAutomaton × Bool) (s : Nat) : Decidable (RoundHarmless A s) :=
  inferInstanceAs (Decidable (_ ∧ _))

def RoundsHarmless : RPQAutomaton × Bool → List Nat → Prop
  | _, [] => True
  | A, s :: ss => RoundHarmless A s ∧ RoundsHarmless (mergeRound A s) ss

instance decidableRoundsHarmless :
    (A : RPQAutomaton × Bool) → (ss : List Nat) → Decidable (RoundsHarmless A ss)
  | _, [] => isTrue trivial
  | A, s :: ss =>
    have := decidableRoundsHarmless (mergeRound A s) ss
    inferInstanceAs (Decidable (_ ∧ _))

/-- The merges of `mergePasses` change no language. -/
def PassesHarmless : Nat → RPQAutomaton → Prop
  | 0, _ => True
  | fuel + 1, A => RoundsHarmless (A, false) (List.range A.rows) ∧
      (A.mergePass.2 → PassesHarmless fuel A.mergePass.1)

instance decidablePassesHarmless :
    (fuel : Nat) → (A : RPQAutomaton) → Decidable (PassesHarmless fuel A)
  | 0, _ => isTrue trivial
  | fuel + 1, A =>
    have := decidablePassesHarmless fuel A.mergePass.1
    inferInstanceAs (Decidable (_ ∧ _))

/-- No merge of `delete_mergeable_states` changes the language. -/
def MergesHarmlessly (A : RPQAutomaton) : Prop := PassesHarmless (A.rows + 1) A

instance (A : RPQAutomaton) : Decidable A.MergesHarmlessly :=
  inferInstanceAs (Decidable (PassesHarmless _ _))

variable {A B : RPQAutomaton} {destiny source : Nat} {t u : Transition} {i j : Nat}

theorem mem_eraseRow {rows : Nat → List Transition} (h : ∀ k, (rows k).Nodup) :
    u ∈ eraseRow rows i t j ↔ u ∈ rows j ∧ (j = i → u ≠ t) := by
  unfold eraseRow
  split_ifs with hj
  · rw [(h j).mem_erase_iff]
    tauto
  · simp [hj]

theorem nodup_eraseRow {rows : Nat → List Transition} (h : ∀ k, (rows k).Nodup) (k : Nat) :
    (eraseRow rows i t k).Nodup := by
  unfold eraseRow
  split_ifs
  · exact (h k).erase t
  · exact h k

/-- The transitions that the loops of `merge_states` add avoid the merged state. -/
def Off (source : Nat) (t : Transition) : Prop := t.fromState ≠ source ∧ t.toState ≠ source

theorem off_redirectOut (hd : destiny ≠ source) (ht : t.fromState = source) :
    Off source (redirectOut destiny t) := by
  refine ⟨hd, ?_⟩
  unfold redirectOut
  split_ifs with h
  · exact hd
  · exact fun hto => h (ht.trans hto.symm)

theorem off_redirectIn (hd : destiny ≠ source) (ht : t.toState = source) :
    Off source (redirectIn destiny t) := by
  refine ⟨?_, hd⟩
  unfold redirectIn
  split_ifs with h
  · exact hd
  · exact fun hfrom => h (hfrom.trans ht.symm)

@[simp] theorem label_redirectOut : (redirectOut destiny t).label = t.label := rfl

@[simp] theorem label_redirectIn : (redirectIn destiny t).label = t.label := rfl

theorem mem_fromTo_moveOut : u ∈ (moveOut destiny A t).fromTo i ↔
    u ∈ A.fromTo i ∨ (i = destiny ∧ u = redirectOut destiny t) :=
  mem_fromTo_addTransition

theorem SyncedOn.mem_toFrom_moveOut (hA : A.SyncedOn (Off source)) (hd : destiny ≠ source)
    (ht : t.fromState = source) : u ∈ (moveOut destiny A t).toFrom j ↔
      (u ∈ A.toFrom j ∧ u ≠ t) ∨
        (j = (redirectOut destiny t).toState ∧ u = redirectOut destiny t) := by
  have hoff := off_redirectOut hd ht
  have hadd := hA.addTransition hoff
  unfold moveOut
  rw [mem_eraseRow hadd.nodup_toFrom, hA.mem_toFrom_addTransition hoff]
  constructor
  · rintro ⟨hu | hu, hne⟩
    · refine .inl ⟨hu, ?_⟩
      rintro rfl
      exact hne (hA.toState_eq hu).symm rfl
    · exact .inr hu
  · rintro (⟨hu, hne⟩ | ⟨hj, rfl⟩)
    · exact ⟨.inl hu, fun _ => hne⟩
    · refine ⟨.inr ⟨hj, rfl⟩, fun _ h => hoff.1 ?_⟩
      rw [h, ht]

theorem SyncedOn.moveOut (hA : A.SyncedOn (Off source)) (hd : destiny ≠ source)
    (ht : t.fromState = source) : (moveOut destiny A t).SyncedOn (Off source) := by
  have hoff := off_redirectOut hd ht
  have hadd := hA.addTransition hoff
  constructor
  · exact hadd.fromState_eq
  · intro j u hu
    rcases (hA.mem_toFrom_moveOut hd ht).mp hu with ⟨hu, -⟩ | ⟨rfl, rfl⟩
    · exact hA.toState_eq hu
    · rfl
  · intro u hu
    rw [mem_fromTo_moveOut, hA.mem_toFrom_moveOut hd ht, hA.mirror u hu]
    constructor
    · rintro (h | ⟨-, rfl⟩)
      · refine .inl ⟨h, ?_⟩
        rintro rfl
        exact hu.1 ht
      · exact .inr ⟨rfl, rfl⟩
    · rintro (⟨h, -⟩ | ⟨-, rfl⟩)
      · exact .inl h
      · exact .inr ⟨rfl, rfl⟩
  · exact hadd.nodup_fromTo
  · exact nodup_eraseRow hadd.nodup_toFrom
  · exact hadd.lt_rows
  · intro j u hu
    exact hadd.toFrom_lt_rows ((mem_eraseRow hadd.nodup_toFrom).mp hu).1

theorem mem_toFrom_moveIn (hA : A.SyncedOn (Off source)) (hd : destiny ≠ source)
    (ht : t.toState = source) : u ∈ (moveIn destiny A t).toFrom j ↔
      u ∈ A.toFrom j ∨ (j = destiny ∧ u = redirectIn destiny t) :=
  hA.mem_toFrom_addTransition (off_redirectIn hd ht)

theorem SyncedOn.mem_fromTo_moveIn (hA : A.SyncedOn (Off source)) (hd : destiny ≠ source)
    (ht : t.toState = source) : u ∈ (moveIn destiny A t).fromTo i ↔
      (u ∈ A.fromTo i ∧ u ≠ t) ∨
        (i = (redirectIn destiny t).fromState ∧ u = redirectIn destiny t) := by
  have hoff := off_redirectIn hd ht
  have hadd := hA.addTransition hoff
  unfold moveIn
  rw [mem_eraseRow hadd.nodup_fromTo, mem_fromTo_addTransition]
  constructor
  · rintro ⟨hu | hu, hne⟩
    · refine .inl ⟨hu, ?_⟩
      rintro rfl
      exact hne (hA.fromState_eq hu).symm rfl
    · exact .inr hu
  · rintro (⟨hu, hne⟩ | ⟨hj, rfl⟩)
    · exact ⟨.inl hu, fun _ => hne⟩
    · refine ⟨.inr ⟨hj, rfl⟩, fun _ h => hoff.2 ?_⟩
      rw [h, ht]

theorem SyncedOn.moveIn (hA : A.SyncedOn (Off source)) (hd : destiny ≠ source)
    (ht : t.toState = source) : (moveIn destiny A t).SyncedOn (Off source) := by
  have hoff := off_redirectIn hd ht
  have hadd := hA.addTransition hoff
  constructor
  · intro i u hu
    rcases (hA.mem_fromTo_moveIn hd ht).mp hu with ⟨hu, -⟩ | ⟨rfl, rfl⟩
    · exact hA.fromState_eq hu
    · rfl
  · exact hadd.toState_eq
  · intro u hu
    rw [hA.mem_fromTo_moveIn hd ht, mem_toFrom_moveIn hA hd ht, ← hA.mirror u hu]
    constructor
    · rintro (⟨h, -⟩ | ⟨-, rfl⟩)
      · exact .inl h
      · exact .inr ⟨rfl, rfl⟩
    · rintro (h | ⟨-, rfl⟩)
      · refine .inl ⟨h, ?_⟩
        rintro rfl
        exact hu.2 ht
      · exact .inr ⟨rfl, rfl⟩
  · exact nodup_eraseRow hadd.nodup_fromTo
  · exact hadd.nodup_toFrom
  · intro i u hu
    exact hadd.lt_rows ((mem_eraseRow hadd.nodup_fromTo).mp hu).1
  · exact hadd.toFrom_lt_rows

/-- Rounds of one of the loops: redirected transitions come into the rows of `destiny` in one table,
and take the place of those that they come from in the other one. -/
theorem foldl_move (move : RPQAutomaton → Transition → RPQAutomaton)
    (redirect : Transition → Transition) (home away : RPQAutomaton → Nat → List Transition)
    (other : Transition → Nat) {moved : Transition → Prop}
    (hmove : ∀ {A t}, A.SyncedOn (Off source) → moved t → (move A t).SyncedOn (Off source) ∧
      (∀ u i, u ∈ home (move A t) i ↔ u ∈ home A i ∨ (i = destiny ∧ u = redirect t)) ∧
      ∀ u j, u ∈ away (move A t) j ↔
        (u ∈ away A j ∧ u ≠ t) ∨ (j = other (redirect t) ∧ u = redirect t))
    (hredirect : ∀ {t}, moved t → ¬ moved (redirect t)) (ts : List Transition)
    (hA : A.SyncedOn (Off source)) (hts : ∀ t ∈ ts, moved t) :
    (ts.foldl move A).SyncedOn (Off source) ∧
      (∀ u i, u ∈ home (ts.foldl move A) i ↔
        u ∈ home A i ∨ (i = destiny ∧ ∃ t ∈ ts, u = redirect t)) ∧
      ∀ u j, u ∈ away (ts.foldl move A) j ↔
        (u ∈ away A j ∧ u ∉ ts) ∨ (j = other u ∧ ∃ t ∈ ts, u = redirect t) := by
  induction ts generalizing A with
  | nil => simp [hA]
  | cons t ts ih =>
    have ht := hts t (by simp)
    have hts' : ∀ t ∈ ts, moved t := fun t h => hts t (by simp [h])
    obtain ⟨hB, hhome, haway⟩ := hmove hA ht
    obtain ⟨hC, hhome', haway'⟩ := ih hB hts'
    refine ⟨hC, fun u i => ?_, fun u j => ?_⟩
    · rw [List.foldl_cons, hhome', hhome]
      simp only [List.mem_cons, exists_eq_or_imp]
      tauto
    · rw [List.foldl_cons, haway', haway]
      have hnot : ∀ v, v = redirect t → v ∉ ts := by
        rintro v rfl hv
        exact hredirect ht (hts' _ hv)
      simp only [List.mem_cons, exists_eq_or_imp]
      constructor
      · rintro (⟨⟨h, hne⟩ | ⟨rfl, rfl⟩, hnot⟩ | h)
        · exact .inl ⟨h, by tauto⟩
        · exact .inr ⟨rfl, .inl rfl⟩
        · exact .inr ⟨h.1, .inr h.2⟩
      · rintro (⟨h, hne⟩ | ⟨rfl, rfl | h⟩)
        · exact .inl ⟨.inl ⟨h, by tauto⟩, by tauto⟩
        · exact .inl ⟨.inr ⟨rfl, rfl⟩, hnot _ rfl⟩
        · exact .inr ⟨rfl, h⟩

theorem SyncedOn.foldl_moveOut (ts : List Transition) (hA : A.SyncedOn (Off source))
    (hd : destiny ≠ source) (hts : ∀ t ∈ ts, t.fromState = source) :
    (ts.foldl (RPQAutomaton.moveOut destiny) A).SyncedOn (Off source) ∧
      (∀ u i, u ∈ (ts.foldl (RPQAutomaton.moveOut destiny) A).fromTo i ↔
        u ∈ A.fromTo i ∨ (i = destiny ∧ ∃ t ∈ ts, u = redirectOut destiny t)) ∧
      ∀ u j, u ∈ (ts.foldl (RPQAutomaton.moveOut destiny) A).toFrom j ↔
        (u ∈ A.toFrom j ∧ u ∉ ts) ∨ (j = u.toState ∧ ∃ t ∈ ts, u = redirectOut destiny t) :=
  foldl_move (RPQAutomaton.moveOut destiny) (redirectOut destiny) fromTo toFrom (·.toState)
    (fun hA ht => ⟨hA.moveOut hd ht, fun _ _ => mem_fromTo_moveOut,
      fun _ _ => hA.mem_toFrom_moveOut hd ht⟩)
    (fun ht => (off_redirectOut hd ht).1) ts hA hts

theorem SyncedOn.foldl_moveIn (ts : List Transition) (hA : A.SyncedOn (Off source))
    (hd : destiny ≠ source) (hts : ∀ t ∈ ts, t.toState = source) :
    (ts.foldl (RPQAutomaton.moveIn destiny) A).SyncedOn (Off source) ∧
      (∀ u j, u ∈ (ts.foldl (RPQAutomaton.moveIn destiny) A).toFrom j ↔
        u ∈ A.toFrom j ∨ (j = destiny ∧ ∃ t ∈ ts, u = redirectIn destiny t)) ∧
      ∀ u i, u ∈ (ts.foldl (RPQAutomaton.moveIn destiny) A).fromTo i ↔
        (u ∈ A.fromTo i ∧ u ∉ ts) ∨ (i = u.fromState ∧ ∃ t ∈ ts, u = redirectIn destiny t) :=
  foldl_move (RPQAutomaton.moveIn destiny) (redirectIn destiny) toFrom fromTo (·.fromState)
    (fun hA ht => ⟨hA.moveIn hd ht, fun _ _ => mem_toFrom_moveIn hA hd ht,
      fun _ _ => hA.mem_fromTo_moveIn hd ht⟩)
    (fun ht => (off_redirectIn hd ht).2) ts hA hts

/-- Where `merge_states` takes a state. -/
def mergedInto (destiny source x : Nat) : Nat := if x = source then destiny else x

@[simp] theorem mergedInto_source : mergedInto destiny source source = destiny := if_pos rfl

theorem mergedInto_of_ne {x : Nat} (h : x ≠ source) : mergedInto destiny source x = x := if_neg h

@[simp] theorem mem_clearRow {rows : Nat → List Transition} :
    u ∈ clearRow rows i j ↔ j ≠ i ∧ u ∈ rows j := by
  unfold clearRow
  split_ifs with h <;> simp [h]

/-- Both tables after `merge_states`. -/
theorem Synced.mem_mergeStates (hA : A.Synced) (hd : destiny ≠ source) :
    (∀ u i, u ∈ (A.mergeStates destiny source).fromTo i ↔
      (u ∈ A.fromTo i ∧ Off source u) ∨
        (i = destiny ∧ ∃ t ∈ A.fromTo source, u = redirectOut destiny t) ∨
        (i = u.fromState ∧ ∃ t ∈ A.toFrom source, t.fromState ≠ source ∧
          u = redirectIn destiny t)) ∧
      (∀ u j, u ∈ (A.mergeStates destiny source).toFrom j →
        Off source u ∧ u.toState = j ∧ u ∈ (A.mergeStates destiny source).fromTo u.fromState) ∧
      (A.mergeStates destiny source).SyncedOn (Off source) := by
  set ends := if source ∈ A.endStates then setInsert destiny A.endStates else A.endStates
  set B := (A.fromTo source).foldl (RPQAutomaton.moveOut destiny) (A.withEndStates ends) with hB
  set C := (B.toFrom source).foldl (RPQAutomaton.moveIn destiny) B with hC
  have hAoff : (A.withEndStates ends).SyncedOn (Off source) :=
    { hA.withEndStates ends with mirror := fun t _ => hA.mirror t trivial }
  obtain ⟨hBsync, hBfrom, hBto⟩ := hAoff.foldl_moveOut (A.fromTo source) hd
    fun t ht => hA.fromState_eq ht
  rw [← hB] at hBsync hBfrom hBto
  have hS : ∀ {u}, u ∈ A.fromTo source ↔ u ∈ A.fromTo u.fromState ∧ u.fromState = source :=
    fun {u} => ⟨fun h => ⟨hA.fromState_eq h ▸ h, hA.fromState_eq h⟩, fun h => h.2 ▸ h.1⟩
  have hoffOut : ∀ {u}, (∃ t ∈ A.fromTo source, u = redirectOut destiny t) → Off source u := by
    rintro u ⟨t, ht, rfl⟩
    exact off_redirectOut hd (hA.fromState_eq ht)
  -- the second loop runs over the transitions into `source` that are no loops
  have hT : ∀ {u}, u ∈ B.toFrom source ↔ u ∈ A.toFrom source ∧ u.fromState ≠ source := by
    intro u
    rw [hBto]
    constructor
    · rintro (⟨h, hnot⟩ | ⟨h, hout⟩)
      · exact ⟨h, fun hu => hnot (hS.mpr ⟨(hA.mem_toFrom_iff.mp h).2, hu⟩)⟩
      · exact absurd h.symm (hoffOut hout).2
    · rintro ⟨h, hne⟩
      exact .inl ⟨h, fun hu => hne (hA.fromState_eq hu)⟩
  obtain ⟨hCsync, hCto, hCfrom⟩ := hBsync.foldl_moveIn (B.toFrom source) hd
    fun t ht => hBsync.toState_eq ht
  rw [← hC] at hCsync hCto hCfrom
  have hoffIn : ∀ {u}, (∃ t ∈ B.toFrom source, u = redirectIn destiny t) → Off source u := by
    rintro u ⟨t, ht, rfl⟩
    exact off_redirectIn hd (hBsync.toState_eq ht)
  have hfrom : ∀ u i, u ∈ (A.mergeStates destiny source).fromTo i ↔
      (u ∈ A.fromTo i ∧ Off source u) ∨
        (i = destiny ∧ ∃ t ∈ A.fromTo source, u = redirectOut destiny t) ∨
        (i = u.fromState ∧ ∃ t ∈ A.toFrom source, t.fromState ≠ source ∧
          u = redirectIn destiny t) := by
    intro u i
    have hclear : u ∈ (A.mergeStates destiny source).fromTo i ↔ i ≠ source ∧ u ∈ C.fromTo i :=
      mem_clearRow
    rw [hclear, hCfrom, hBfrom]
    constructor
    · rintro ⟨hi, ⟨h | ⟨hid, hout⟩, hnot⟩ | ⟨hiu, t, ht, hut⟩⟩
      · have hu := hA.fromState_eq h
        refine .inl ⟨h, hu ▸ hi, fun hto => hnot (hT.mpr ⟨?_, hu ▸ hi⟩)⟩
        exact hA.mem_toFrom_iff.mpr ⟨hto, hu ▸ h⟩
      · exact .inr (.inl ⟨hid, hout⟩)
      · exact .inr (.inr ⟨hiu, t, (hT.mp ht).1, (hT.mp ht).2, hut⟩)
    · rintro (⟨h, hoff⟩ | ⟨hid, hout⟩ | ⟨hiu, t, ht, htne, hut⟩)
      · have hu := hA.fromState_eq h
        exact ⟨hu ▸ hoff.1, .inl ⟨.inl h, fun hu' => hoff.2 (hBsync.toState_eq hu')⟩⟩
      · exact ⟨hid ▸ hd, .inl ⟨.inr ⟨hid, hout⟩,
          fun hu' => (hoffOut hout).2 (hBsync.toState_eq hu')⟩⟩
      · have hin : ∃ t ∈ B.toFrom source, u = redirectIn destiny t := ⟨t, hT.mpr ⟨ht, htne⟩, hut⟩
        exact ⟨hiu ▸ (hoffIn hin).1, .inr ⟨hiu, hin⟩⟩
  have hto : ∀ u j, u ∈ (A.mergeStates destiny source).toFrom j → j ≠ source ∧ u ∈ C.toFrom j :=
    fun u j h => mem_clearRow.mp h
  have hoffTo : ∀ u j, u ∈ (A.mergeStates destiny source).toFrom j → Off source u := by
    intro u j hu
    obtain ⟨hj, h⟩ := hto u j hu
    have huj := hCsync.toState_eq h
    rcases (hCto u j).mp h with h | ⟨-, hin⟩
    · rcases (hBto u j).mp h with ⟨h, hnot⟩ | ⟨-, hout⟩
      · refine ⟨fun hsrc => hnot ?_, huj ▸ hj⟩
        exact hS.mpr ⟨(hA.mem_toFrom_iff.mp h).2, hsrc⟩
      · exact hoffOut hout
    · exact hoffIn hin
  refine ⟨hfrom, fun u j hu => ?_, ?_⟩
  · have hoff := hoffTo u j hu
    obtain ⟨hj, h⟩ := hto u j hu
    have huj := hCsync.toState_eq h
    refine ⟨hoff, huj, mem_clearRow.mpr ⟨hoff.1, ?_⟩⟩
    exact (hCsync.mirror u hoff).mpr (huj ▸ h)
  · constructor
    · exact fun h => hCsync.fromState_eq (mem_clearRow.mp h).2
    · exact fun h => hCsync.toState_eq (mem_clearRow.mp h).2
    · intro u hu
      have h₁ : u ∈ (A.mergeStates destiny source).fromTo u.fromState ↔
          u.fromState ≠ source ∧ u ∈ C.fromTo u.fromState := mem_clearRow
      have h₂ : u ∈ (A.mergeStates destiny source).toFrom u.toState ↔
          u.toState ≠ source ∧ u ∈ C.toFrom u.toState := mem_clearRow
      rw [h₁, h₂, hCsync.mirror u hu, and_iff_right hu.1, and_iff_right hu.2]
    · intro k
      change (clearRow C.fromTo source k).Nodup
      unfold clearRow
      split_ifs
      · exact List.nodup_nil
      · exact hCsync.nodup_fromTo k
    · intro k
      change (clearRow C.toFrom source k).Nodup
      unfold clearRow
      split_ifs
      · exact List.nodup_nil
      · exact hCsync.nodup_toFrom k
    · exact fun h => hCsync.lt_rows (mem_clearRow.mp h).2
    · exact fun h => hCsync.toFrom_lt_rows (mem_clearRow.mp h).2

theorem Synced.mergeStates (hA : A.Synced) (hd : destiny ≠ source) :
    (A.mergeStates destiny source).Synced := by
  obtain ⟨hfrom, hto, hsync⟩ := hA.mem_mergeStates hd
  refine { hsync with mirror := fun u _ => ⟨fun hu => ?_, fun hu => (hto u _ hu).2.2⟩ }
  have hoff : Off source u := by
    rcases (hfrom u _).mp hu with ⟨-, h⟩ | ⟨-, t, ht, rfl⟩ | ⟨-, t, ht, -, rfl⟩
    · exact h
    · exact off_redirectOut hd (hA.fromState_eq ht)
    · exact off_redirectIn hd (hA.toState_eq ht)
  exact (hsync.mirror u hoff).mp hu

/-- The edges after `merge_states` join the merged states as the old ones did. -/
theorem Synced.edge_mergeStates (hA : A.Synced) (hd : destiny ≠ source) {l : Option PathLabel} :
    (A.mergeStates destiny source).Edge i l j ↔ ∃ p q, mergedInto destiny source p = i ∧
      mergedInto destiny source q = j ∧ A.Edge p l q := by
  obtain ⟨hfrom, -, -⟩ := hA.mem_mergeStates hd
  constructor
  · rintro ⟨u, hu, rfl, rfl⟩
    rcases (hfrom u i).mp hu with ⟨h, hoff⟩ | ⟨rfl, t, ht, rfl⟩ | ⟨rfl, t, ht, hne, rfl⟩
    · have hi := hA.fromState_eq h
      exact ⟨i, u.toState, mergedInto_of_ne (hi ▸ hoff.1), mergedInto_of_ne hoff.2, u, h, rfl, rfl⟩
    · refine ⟨source, t.toState, mergedInto_source, ?_, t, ht, rfl, rfl⟩
      simp only [redirectOut, hA.fromState_eq ht, mergedInto, eq_comm]
    · obtain ⟨hts, ht⟩ := hA.mem_toFrom_iff.mp ht
      refine ⟨t.fromState, source, ?_, mergedInto_source, t, ht, hts, rfl⟩
      simp only [redirectIn, hts, mergedInto]
  · rintro ⟨p, q, rfl, rfl, t, ht, rfl, rfl⟩
    have hp := hA.fromState_eq ht
    by_cases hsource : p = source
    · subst hsource
      refine ⟨redirectOut destiny t, (hfrom _ _).mpr (.inr (.inl ⟨mergedInto_source, t, ht, rfl⟩)),
        ?_, rfl⟩
      simp only [redirectOut, hp, mergedInto, eq_comm]
    · by_cases hto : t.toState = source
      · refine ⟨redirectIn destiny t, (hfrom _ _).mpr (.inr (.inr ⟨?_, t, ?_, ?_, rfl⟩)), ?_, rfl⟩
        · simp only [redirectIn, hto, hp, mergedInto]
        · exact hA.mem_toFrom_iff.mpr ⟨hto, hp ▸ ht⟩
        · exact hp ▸ hsource
        · rw [hto, mergedInto_source]
          rfl
      · rw [mergedInto_of_ne hsource, mergedInto_of_ne hto]
        exact ⟨t, (hfrom _ _).mpr (.inl ⟨ht, hp ▸ hsource, hto⟩), rfl, rfl⟩

theorem foldl_rows (move : RPQAutomaton → Transition → RPQAutomaton)
    (redirect : Transition → Transition) (hmove : ∀ A t, (move A t).rows = (A.addTransition (redirect t)).rows ∧
      (move A t).endStates = A.endStates) {ts : List Transition}
    (hts : ∀ t ∈ ts, (redirect t).fromState < A.rows ∧ (redirect t).toState < A.rows) :
    (ts.foldl move A).rows = A.rows ∧ (ts.foldl move A).endStates = A.endStates := by
  induction ts generalizing A with
  | nil => exact ⟨rfl, rfl⟩
  | cons t ts ih =>
    have ht := hts t (by simp)
    have hrows : (move A t).rows = A.rows := by
      rw [(hmove A t).1, rows_addTransition]
      omega
    rw [List.foldl_cons]
    obtain ⟨h₁, h₂⟩ := ih fun u hu => hrows ▸ hts u (by simp [hu])
    exact ⟨h₁.trans hrows, h₂.trans (hmove A t).2⟩

theorem foldl_moveOut_rows {ts : List Transition}
    (hts : ∀ t ∈ ts, destiny < A.rows ∧ t.toState < A.rows) :
    (ts.foldl (moveOut destiny) A).rows = A.rows ∧
      (ts.foldl (moveOut destiny) A).endStates = A.endStates := by
  refine foldl_rows (moveOut destiny) (redirectOut destiny) (fun A t => ⟨rfl, endStates_addTransition⟩) fun t ht => ⟨(hts t ht).1, ?_⟩
  unfold redirectOut
  split_ifs
  · exact (hts t ht).1
  · exact (hts t ht).2

theorem foldl_moveIn_rows {ts : List Transition}
    (hts : ∀ t ∈ ts, destiny < A.rows ∧ t.fromState < A.rows) :
    (ts.foldl (moveIn destiny) A).rows = A.rows ∧
      (ts.foldl (moveIn destiny) A).endStates = A.endStates := by
  refine foldl_rows (moveIn destiny) (redirectIn destiny) (fun A t => ⟨rfl, endStates_addTransition⟩) fun t ht => ⟨?_, (hts t ht).1⟩
  unfold redirectIn
  split_ifs
  · exact (hts t ht).1
  · exact (hts t ht).2

theorem Synced.rows_mergeStates (hA : A.Synced) (hdn : destiny < A.rows)
    (hd : destiny ≠ source) : (A.mergeStates destiny source).rows = A.rows ∧
      ∀ e, e ∈ (A.mergeStates destiny source).endStates ↔
        e ∈ A.endStates ∨ (e = destiny ∧ source ∈ A.endStates) := by
  set ends := if source ∈ A.endStates then setInsert destiny A.endStates else A.endStates
    with hends
  set B := (A.fromTo source).foldl (RPQAutomaton.moveOut destiny) (A.withEndStates ends) with hB
  obtain ⟨hBrows, hBends⟩ : B.rows = A.rows ∧ B.endStates = ends :=
    foldl_moveOut_rows fun t ht => ⟨hdn, (hA.lt_rows ht).2⟩
  have hAoff : (A.withEndStates ends).SyncedOn (Off source) :=
    { hA.withEndStates ends with mirror := fun t _ => hA.mirror t trivial }
  have hBsync := (hAoff.foldl_moveOut (A.fromTo source) hd
    fun t ht => hA.fromState_eq ht).1
  rw [← hB] at hBsync
  obtain ⟨hCrows, hCends⟩ : (A.mergeStates destiny source).rows = B.rows ∧
      (A.mergeStates destiny source).endStates = B.endStates :=
    foldl_moveIn_rows fun t ht => ⟨hBrows ▸ hdn, (hBsync.toFrom_lt_rows ht).1⟩
  refine ⟨hCrows.trans hBrows, fun e => ?_⟩
  have heq : (A.mergeStates destiny source).endStates = ends := hCends.trans hBends
  rw [heq, hends]
  split_ifs with h
  · rw [mem_setInsert]
    tauto
  · tauto

theorem Synced.language_mergeStates (hA : A.Synced) (hd : destiny ≠ source) (h0 : source ≠ 0)
    (hdn : destiny < A.rows) {x y : Nat} (hxy : A.Edge x none y)
    (hcase : (x = destiny ∧ y = source) ∨ (x = source ∧ y = destiny)) :
    (A.mergeStates destiny source).language =
      Accepts (addSilent A.Edge y x) (· ∈ A.endStates) 0 := by
  set f := mergedInto destiny source
  have hback : EpsRun (addSilent A.Edge y x) y [] x := .single_eps (.inr ⟨rfl, rfl, rfl⟩)
  have hforth : EpsRun (addSilent A.Edge y x) x [] y := .single_eps (.inl hxy)
  have hfx : f x = destiny := by
    rcases hcase with ⟨rfl, rfl⟩ | ⟨rfl, rfl⟩
    · exact mergedInto_of_ne hd
    · exact mergedInto_source
  have hfy : f y = destiny := by
    rcases hcase with ⟨rfl, rfl⟩ | ⟨rfl, rfl⟩
    · exact mergedInto_source
    · exact mergedInto_of_ne hd
  have hsilent : ∀ p q, f p = f q → EpsRun (addSilent A.Edge y x) p [] q := by
    intro p q hpq
    have hmem : ∀ {z}, f z = destiny → z = x ∨ z = y := by
      intro z hz
      by_cases hzs : z = source
      · rcases hcase with ⟨-, rfl⟩ | ⟨rfl, -⟩
        · exact .inr hzs
        · exact .inl hzs
      · have : z = destiny := (mergedInto_of_ne hzs).symm.trans hz
        rcases hcase with ⟨rfl, -⟩ | ⟨-, rfl⟩
        · exact .inl this
        · exact .inr this
    by_cases hpd : f p = destiny
    · rcases hmem hpd with rfl | rfl <;> rcases hmem (hpq ▸ hpd) with rfl | rfl
      · exact .nil _
      · exact hforth
      · exact hback
      · exact .nil _
    · have hps : p ≠ source := fun h => hpd (h ▸ mergedInto_source)
      have hqs : q ≠ source := fun h => hpd (hpq.trans (h ▸ mergedInto_source))
      have hp : f p = p := mergedInto_of_ne hps
      have hq : f q = q := mergedInto_of_ne hqs
      rw [hp, hq] at hpq
      exact hpq ▸ .nil p
  have hedge : ∀ i l j, (A.mergeStates destiny source).Edge i l j ↔
      ∃ p q, f p = i ∧ f q = j ∧ addSilent A.Edge y x p l q := by
    intro i l j
    rw [hA.edge_mergeStates hd]
    constructor
    · rintro ⟨p, q, hp, hq, h⟩
      exact ⟨p, q, hp, hq, .inl h⟩
    · rintro ⟨p, q, hp, hq, h | ⟨rfl, rfl, rfl⟩⟩
      · exact ⟨p, q, hp, hq, h⟩
      · exact ⟨_, _, hfx.trans (hfy.symm.trans hp), hfy.trans (hfx.symm.trans hq), hxy⟩
  have hf0 : f 0 = 0 := mergedInto_of_ne (Ne.symm h0)
  have hends := (hA.rows_mergeStates hdn hd).2
  have hquot : ∀ {q w}, EpsRun (A.mergeStates destiny source).Edge 0 w (f q) ↔
      EpsRun (addSilent A.Edge y x) 0 w q := by
    intro q w
    have h := EpsRun.quotient_iff (p := 0) (q := q) (w := w) hsilent hedge
    rwa [hf0] at h
  apply le_antisymm
  · rintro w ⟨e, he, h⟩
    have hes : e ≠ source := by
      rintro rfl
      rcases h.last_edge with ⟨h, -⟩ | ⟨_, _, _, _, _, hlast⟩
      · exact h0 h.symm
      · obtain ⟨p, q, -, hq, -⟩ := (hedge _ _ _).mp hlast
        by_cases hqs : q = e
        · exact hd ((hqs ▸ mergedInto_source : f q = destiny).symm.trans hq)
        · exact hqs ((mergedInto_of_ne hqs).symm.trans hq)
    rcases (hends e).mp he with he | ⟨rfl, hs⟩
    · refine ⟨e, he, hquot.mp ?_⟩
      rwa [show f e = e from mergedInto_of_ne hes]
    · refine ⟨source, hs, hquot.mp ?_⟩
      rwa [show f source = e from mergedInto_source]
  · rintro w ⟨e, he, h⟩
    refine ⟨f e, (hends _).mpr ?_, hquot.mpr h⟩
    by_cases hes : e = source
    · exact .inr ⟨hes ▸ mergedInto_source, hes ▸ he⟩
    · have hfe : f e = e := mergedInto_of_ne hes
      exact .inl (by rwa [hfe])

theorem mergeEntered_eq_some {s : Nat} (h : A.mergeEntered s = some B) :
    ∃ t, A.toFrom s = [t] ∧ t.type.isEmpty ∧ t.fromState ≠ s ∧
      B = if t.fromState = 0 then A.mergeStates t.fromState s else A.mergeStates s t.fromState := by
  unfold mergeEntered at h
  split at h
  · rename_i t hrow
    split_ifs at h with ht h0
    · exact ⟨t, hrow, ht.1, ht.2, by rw [if_pos h0]; exact (Option.some.inj h).symm⟩
    · exact ⟨t, hrow, ht.1, ht.2, by rw [if_neg h0]; exact (Option.some.inj h).symm⟩
  · exact absurd h (by simp)

theorem mergeLeft_eq_some {s : Nat} (h : A.mergeLeft s = some B) :
    ∃ t, A.fromTo s = [t] ∧ t.type.isEmpty ∧ t.toState ≠ s ∧
      B = if t.toState = 0 then A.mergeStates t.toState s else A.mergeStates s t.toState := by
  unfold mergeLeft at h
  split at h
  · rename_i t hrow
    split_ifs at h with ht h0
    · exact ⟨t, hrow, ht.1, ht.2, by rw [if_pos h0]; exact (Option.some.inj h).symm⟩
    · exact ⟨t, hrow, ht.1, ht.2, by rw [if_neg h0]; exact (Option.some.inj h).symm⟩
  · exact absurd h (by simp)

def liveStates (A : RPQAutomaton) : Finset Nat :=
  (Finset.range A.rows).filter fun i => A.fromTo i ≠ [] ∨ A.toFrom i ≠ []

theorem Synced.mem_liveStates (hA : A.Synced) :
    i ∈ A.liveStates ↔ ∃ l j, A.Edge i l j ∨ A.Edge j l i := by
  unfold liveStates
  rw [Finset.mem_filter, Finset.mem_range]
  constructor
  · rintro ⟨-, h | h⟩
    · obtain ⟨t, ht⟩ := List.exists_mem_of_ne_nil _ h
      exact ⟨t.label, t.toState, .inl ⟨t, ht, rfl, rfl⟩⟩
    · obtain ⟨t, ht⟩ := List.exists_mem_of_ne_nil _ h
      obtain ⟨hi, ht⟩ := hA.mem_toFrom_iff.mp ht
      exact ⟨t.label, t.fromState, .inr ⟨t, ht, hi, rfl⟩⟩
  · rintro ⟨l, j, ⟨t, ht, -, -⟩ | ⟨t, ht, hi, -⟩⟩
    · exact ⟨hA.fromState_eq ht ▸ (hA.lt_rows ht).1, .inl (List.ne_nil_of_mem ht)⟩
    · have hmem : t ∈ A.toFrom i :=
        hA.mem_toFrom_iff.mpr ⟨hi, hA.fromState_eq ht ▸ ht⟩
      exact ⟨hi ▸ (hA.lt_rows ht).2, .inr (List.ne_nil_of_mem hmem)⟩

structure Merged (A B : RPQAutomaton) : Prop where
  synced : B.Synced
  rows_eq : B.rows = A.rows
  end_lt : (∀ e ∈ A.endStates, e < A.rows) → ∀ e ∈ B.endStates, e < B.rows
  card_lt : B.liveStates.card < A.liveStates.card

theorem Synced.merged_mergeStates (hA : A.Synced) (hd : destiny ≠ source) {l : Option PathLabel}
    (hedge : A.Edge destiny l source ∨ A.Edge source l destiny) :
    A.Merged (A.mergeStates destiny source) := by
  have hdn : destiny < A.rows := by
    rcases hedge with h | h
    · exact (hA.edge_lt h).1
    · exact (hA.edge_lt h).2
  obtain ⟨hrows, hends⟩ := hA.rows_mergeStates hdn hd
  refine ⟨hA.mergeStates hd, hrows, fun hlt e he => ?_, ?_⟩
  · rw [hrows]
    rcases (hends e).mp he with he | ⟨rfl, -⟩
    · exact hlt e he
    · exact hdn
  · apply Finset.card_lt_card
    rw [Finset.ssubset_iff_of_subset]
    · refine ⟨source, hA.mem_liveStates.mpr ⟨l, destiny, hedge.symm⟩, fun h => ?_⟩
      have hne : ∀ x, mergedInto destiny source x ≠ source := by
        intro x hx
        by_cases hxs : x = source
        · rw [hxs, mergedInto_source] at hx
          exact hd hx
        · exact hxs ((mergedInto_of_ne hxs).symm.trans hx)
      obtain ⟨k, j, h | h⟩ := (hA.mergeStates hd).mem_liveStates.mp h
      · obtain ⟨p, q, hp, -, -⟩ := (hA.edge_mergeStates hd).mp h
        exact hne p hp
      · obtain ⟨p, q, -, hq, -⟩ := (hA.edge_mergeStates hd).mp h
        exact hne q hq
    · intro i hi
      have hlive : ∀ p, p ∈ A.liveStates → mergedInto destiny source p ∈ A.liveStates := by
        intro p hp
        by_cases hps : p = source
        · rw [hps, mergedInto_source]
          exact hA.mem_liveStates.mpr ⟨l, source, hedge⟩
        · rwa [mergedInto_of_ne hps]
      obtain ⟨k, j, h | h⟩ := (hA.mergeStates hd).mem_liveStates.mp hi
      · obtain ⟨p, q, rfl, -, hpq⟩ := (hA.edge_mergeStates hd).mp h
        exact hlive p (hA.mem_liveStates.mpr ⟨k, q, .inl hpq⟩)
      · obtain ⟨p, q, -, rfl, hpq⟩ := (hA.edge_mergeStates hd).mp h
        exact hlive q (hA.mem_liveStates.mpr ⟨k, p, .inr hpq⟩)

theorem Synced.edge_of_toFrom (hA : A.Synced) (ht : t ∈ A.toFrom j) :
    A.Edge t.fromState t.label j := by
  obtain ⟨hj, ht⟩ := hA.mem_toFrom_iff.mp ht
  exact ⟨t, ht, hj, rfl⟩

theorem label_of_isEmpty (h : t.type.isEmpty) : t.label = none := if_pos h

theorem Synced.merged_mergeEntered (hA : A.Synced) {s : Nat} (h : A.mergeEntered s = some B) :
    A.Merged B := by
  obtain ⟨t, hrow, hsilent, hne, rfl⟩ := mergeEntered_eq_some h
  have hedge : A.Edge t.fromState t.label s := hA.edge_of_toFrom (by simp [hrow])
  split_ifs with h0
  · exact hA.merged_mergeStates hne (.inl hedge)
  · exact hA.merged_mergeStates hne.symm (.inr hedge)

theorem Synced.merged_mergeLeft (hA : A.Synced) {s : Nat} (h : A.mergeLeft s = some B) :
    A.Merged B := by
  obtain ⟨t, hrow, hsilent, hne, rfl⟩ := mergeLeft_eq_some h
  have hedge : A.Edge s t.label t.toState := ⟨t, by simp [hrow], rfl, rfl⟩
  split_ifs with h0
  · exact hA.merged_mergeStates hne (.inr hedge)
  · exact hA.merged_mergeStates hne.symm (.inl hedge)

theorem accepts_le_start (ht : t ∈ A.toFrom 0)
    (hharmless : A.EnteredHarmless 0) :
    Accepts A.Edge (· ∈ A.endStates) t.fromState ≤ A.language := by
  obtain ⟨hend, hcovered⟩ := hharmless rfl t ht
  have hcover : ∀ l j, A.Edge t.fromState l j →
      (l = none ∧ (j = 0 ∨ j = t.fromState)) ∨ A.Edge 0 l j := by
    rintro l j ⟨u, hu, rfl, rfl⟩
    rcases hcovered u hu with ⟨hsilent, hto⟩ | ⟨v, hv, hto, hlabel⟩
    · exact .inl ⟨label_of_isEmpty hsilent, hto⟩
    · exact .inr ⟨v, hv, hto, hlabel⟩
  rintro w ⟨e, he, h⟩
  generalize hp : t.fromState = p at h hcover
  induction h with
  | nil q => exact ⟨0, hend (hp ▸ he), .nil 0⟩
  | @eps p r f w hstep h ih =>
    rcases hcover _ _ hstep with ⟨-, rfl | rfl⟩ | h0
    · exact ⟨f, he, h⟩
    · exact ih he hp hcover
    · exact ⟨f, he, .eps h0 h⟩
  | @sym p r f a w hstep h ih =>
    rcases hcover _ _ hstep with ⟨hl, -⟩ | h0
    · exact absurd hl (by simp)
    · exact ⟨f, he, .sym h0 h⟩

theorem Synced.accepts_mergeEntered (hA : A.Synced) {s : Nat} (h : A.mergeEntered s = some B)
    (ht : t ∈ A.toFrom s) :
    B.language = Accepts (addSilent A.Edge s t.fromState) (· ∈ A.endStates) 0 := by
  obtain ⟨u, hrow, hsilent, hne, rfl⟩ := mergeEntered_eq_some h
  obtain rfl : t = u := by simpa [hrow] using ht
  have hedge : A.Edge t.fromState none s := label_of_isEmpty hsilent ▸ hA.edge_of_toFrom ht
  obtain ⟨hfrom, hs⟩ := hA.edge_lt hedge
  split_ifs with h0
  · have hs0 : s ≠ 0 := fun h => hne (h0.trans h.symm)
    exact hA.language_mergeStates hne hs0 hfrom hedge (.inl ⟨rfl, rfl⟩)
  · exact hA.language_mergeStates hne.symm h0 hs hedge (.inr ⟨rfl, rfl⟩)

theorem Synced.accepts_mergeLeft (hA : A.Synced) {s : Nat} (h : A.mergeLeft s = some B)
    (ht : t ∈ A.fromTo s) :
    B.language = Accepts (addSilent A.Edge t.toState s) (· ∈ A.endStates) 0 := by
  obtain ⟨u, hrow, hsilent, hne, rfl⟩ := mergeLeft_eq_some h
  obtain rfl : t = u := by simpa [hrow] using ht
  have hedge : A.Edge s none t.toState := ⟨t, ht, rfl, label_of_isEmpty hsilent⟩
  obtain ⟨hs, hto⟩ := hA.edge_lt hedge
  split_ifs with h0
  · have hs0 : s ≠ 0 := fun h => hne (h0.trans h.symm)
    exact hA.language_mergeStates hne hs0 hto hedge (.inr ⟨rfl, rfl⟩)
  · exact hA.language_mergeStates hne.symm h0 hs hedge (.inl ⟨rfl, rfl⟩)

/-- Every path that arrives at a state with one silent source has just left that one. -/
theorem Synced.before_mergeEntered (hA : A.Synced) {s : Nat} (h : A.mergeEntered s = some B)
    (ht : t ∈ A.toFrom s) {p : Nat} {w : List PathLabel} (hw : EpsRun A.Edge p w s) :
    p = s ∨ EpsRun A.Edge p w t.fromState := by
  obtain ⟨u, hrow, hsilent, hne, -⟩ := mergeEntered_eq_some h
  obtain rfl : t = u := by simpa [hrow] using ht
  rcases hw.last_edge with ⟨hp, -⟩ | ⟨v, l, r, rfl, hv, ⟨u, hu, hto, rfl⟩⟩
  · exact .inl hp
  · have hu' : u ∈ A.toFrom s := hA.mem_toFrom_iff.mpr ⟨hto, hA.fromState_eq hu ▸ hu⟩
    rw [hrow, List.mem_singleton] at hu'
    have hr : t.fromState = r := hu' ▸ hA.fromState_eq hu
    rw [hu', label_of_isEmpty hsilent, hr]
    exact .inr (by simpa using hv)

theorem Synced.language_mergeEntered (hA : A.Synced) {s : Nat}
    (h : A.mergeEntered s = some B) (hharmless : A.EnteredHarmless s) :
    B.language = A.language := by
  obtain ⟨t, hrow, -, -, -⟩ := mergeEntered_eq_some h
  have hmem : t ∈ A.toFrom s := by simp [hrow]
  rw [hA.accepts_mergeEntered h hmem]
  by_cases hs0 : s = 0
  · subst hs0
    exact accepts_addSilent (accepts_le_start hmem hharmless) 0
  · exact accepts_addSilent_of_back fun w hw =>
      (hA.before_mergeEntered h hmem hw).resolve_left fun h => hs0 h.symm

/-- A state with one silent successor accepts what that one does, and the empty word at an end. -/
theorem accepts_of_mergeLeft {s : Nat} (h : A.mergeLeft s = some B) (ht : t ∈ A.fromTo s)
    {w : List PathLabel} (hw : w ∈ Accepts A.Edge (· ∈ A.endStates) s) :
    (w = [] ∧ s ∈ A.endStates) ∨ w ∈ Accepts A.Edge (· ∈ A.endStates) t.toState := by
  obtain ⟨u, hrow, hsilent, -, -⟩ := mergeLeft_eq_some h
  have hout : ∀ l j, A.Edge s l j → l = none ∧ j = t.toState := by
    intro l j ⟨v, hv, hto, hlabel⟩
    obtain rfl : v = u := by simpa [hrow] using hv
    obtain rfl : t = v := by simpa [hrow] using ht
    exact ⟨hlabel.symm.trans (label_of_isEmpty hsilent), hto.symm⟩
  obtain ⟨e, he, h⟩ := hw
  cases h with
  | nil => exact .inl ⟨rfl, he⟩
  | eps hstep h => exact .inr ⟨e, he, (hout _ _ hstep).2 ▸ h⟩
  | sym hstep h => exact absurd (hout _ _ hstep).1 (by simp)

theorem Synced.language_mergeLeft (hA : A.Synced) {s : Nat}
    (h : A.mergeLeft s = some B) (hharmless : A.LeftHarmless s) :
    B.language = A.language := by
  obtain ⟨t, hrow, hsilent, -, -⟩ := mergeLeft_eq_some h
  have hmem : t ∈ A.fromTo s := by simp [hrow]
  rw [hA.accepts_mergeLeft h hmem]
  -- the other state accepts what `s` does, unless `s` is an end state
  have hnonempty : ([] ∈ Accepts A.Edge (· ∈ A.endStates) t.toState ∨ s ∉ A.endStates) →
      Accepts A.Edge (· ∈ A.endStates) s ≤ Accepts A.Edge (· ∈ A.endStates) t.toState := by
    intro hnil w hw
    rcases accepts_of_mergeLeft h hmem hw with ⟨rfl, hs⟩ | hw
    · exact hnil.resolve_right fun hnot => hnot hs
    · exact hw
  by_cases hend : s ∈ A.endStates
  · rcases hharmless hend t hmem with h | ⟨e, he, h⟩ | ⟨hto0, honly⟩
    · exact accepts_addSilent (hnonempty (.inl ⟨t.toState, h, .nil _⟩)) 0
    · obtain ⟨k, hk, hke⟩ := hA.mem_epsilonClosure.mp he
      have hrun : EpsRun A.Edge t.toState [] e := hk.append (.single_eps hke)
      exact accepts_addSilent (hnonempty (.inl ⟨e, h, hrun⟩)) 0
    · apply accepts_addSilent_of_back
      intro w hw
      have hkey : t.toState = t.toState → EpsRun A.Edge 0 w s := by
        -- along the path: the other state is entered from `s`, or silently from itself
        refine EpsRun.concat_induction (motive := fun w q => q = t.toState →
          EpsRun A.Edge 0 w s) (fun h => absurd h.symm hto0) ?_ hw
        rintro w r l q hwr ⟨u, hu, rfl, rfl⟩ hm hq
        have hr := hA.fromState_eq hu
        have hu' : u ∈ A.toFrom t.toState := hA.mem_toFrom_iff.mpr ⟨hq, hr ▸ hu⟩
        rcases honly u hu' with hus | ⟨husilent, hut⟩
        · obtain rfl : s = r := hus.symm.trans hr
          obtain rfl : u = t := by simpa [hrow] using hu
          rw [label_of_isEmpty hsilent]
          simpa using hwr
        · rw [label_of_isEmpty husilent]
          simpa using hm (hr.symm.trans hut)
      exact hkey rfl
  · exact accepts_addSilent (hnonempty (.inr hend)) 0

/-- What one round of the loop, or several, does to an automaton with well-kept tables. -/
structure Rounds (A B : RPQAutomaton × Bool) : Prop where
  synced : B.1.Synced
  rows_eq : B.1.rows = A.1.rows
  end_lt : (∀ e ∈ A.1.endStates, e < A.1.rows) → ∀ e ∈ B.1.endStates, e < B.1.rows
  changed : B = A ∨ (B.2 ∧ B.1.liveStates.card < A.1.liveStates.card)

theorem Rounds.refl {A : RPQAutomaton × Bool} (hA : A.1.Synced) : Rounds A A :=
  ⟨hA, rfl, id, .inl rfl⟩

theorem Rounds.trans {A B C : RPQAutomaton × Bool} (h : Rounds A B) (h' : Rounds B C) :
    Rounds A C where
  synced := h'.synced
  rows_eq := h'.rows_eq.trans h.rows_eq
  end_lt he := h'.end_lt (h.end_lt he)
  changed := by
    rcases h.changed with rfl | ⟨hflag, hlt⟩
    · exact h'.changed
    · rcases h'.changed with rfl | ⟨hflag', hlt'⟩
      · exact .inr ⟨hflag, hlt⟩
      · exact .inr ⟨hflag', hlt'.trans hlt⟩

theorem Merged.rounds {A : RPQAutomaton × Bool} (h : A.1.Merged B) : Rounds A (B, true) :=
  ⟨h.synced, h.rows_eq, h.end_lt, .inr ⟨rfl, h.card_lt⟩⟩

theorem rounds_enteredStep {A : RPQAutomaton × Bool} (hA : A.1.Synced) (s : Nat) :
    Rounds A (enteredStep A s) := by
  unfold enteredStep
  split
  · rename_i B h
    exact (hA.merged_mergeEntered h).rounds
  · exact .refl hA

theorem rounds_leftStep {A : RPQAutomaton × Bool} (hA : A.1.Synced) (s : Nat) :
    Rounds A (leftStep A s) := by
  unfold leftStep
  split
  · rename_i B h
    exact (hA.merged_mergeLeft h).rounds
  · exact .refl hA

theorem rounds_mergeRound {A : RPQAutomaton × Bool} (hA : A.1.Synced) (s : Nat) :
    Rounds A (mergeRound A s) :=
  (rounds_enteredStep hA s).trans (rounds_leftStep (rounds_enteredStep hA s).synced s)

theorem rounds_foldl {A : RPQAutomaton × Bool} (hA : A.1.Synced) (ss : List Nat) :
    Rounds A (ss.foldl mergeRound A) := by
  induction ss generalizing A with
  | nil => exact .refl hA
  | cons s ss ih =>
    have h := rounds_mergeRound hA s
    exact h.trans (ih h.synced)

theorem rounds_mergePass (hA : A.Synced) : Rounds (A, false) A.mergePass :=
  rounds_foldl hA _

theorem language_mergeRound {A : RPQAutomaton × Bool} (hA : A.1.Synced) {s : Nat}
    (h : RoundHarmless A s) : (mergeRound A s).1.language = A.1.language := by
  have hentered : (enteredStep A s).1.language = A.1.language := by
    unfold enteredStep
    split
    · rename_i B hB
      exact hA.language_mergeEntered hB (h.1 (by simp [hB]))
    · rfl
  have hsynced := (rounds_enteredStep hA s).synced
  rw [← hentered]
  unfold mergeRound leftStep
  split
  · rename_i B hB
    exact hsynced.language_mergeLeft hB (h.2 (by simp [hB]))
  · rfl

theorem language_foldl_mergeRound {A : RPQAutomaton × Bool} (hA : A.1.Synced) {ss : List Nat}
    (h : RoundsHarmless A ss) : (ss.foldl mergeRound A).1.language = A.1.language := by
  induction ss generalizing A with
  | nil => rfl
  | cons s ss ih =>
    rw [List.foldl_cons, ih (rounds_mergeRound hA s).synced h.2, language_mergeRound hA h.1]

theorem language_mergePasses {fuel : Nat} (hA : A.Synced) (h : PassesHarmless fuel A) :
    (mergePasses fuel A).language = A.language := by
  induction fuel generalizing A with
  | zero => rfl
  | succ fuel ih =>
    have hpass : A.mergePass.1.language = A.language := language_foldl_mergeRound hA h.1
    rw [mergePasses]
    split_ifs with hflag
    · rw [ih (rounds_mergePass hA).synced (h.2 hflag), hpass]
    · exact hpass

theorem mergePasses_spec {fuel : Nat} (hA : A.Synced) (hend : ∀ e ∈ A.endStates, e < A.rows) :
    (mergePasses fuel A).Synced ∧ (mergePasses fuel A).rows = A.rows ∧
      ∀ e ∈ (mergePasses fuel A).endStates, e < A.rows := by
  induction fuel generalizing A with
  | zero => exact ⟨hA, rfl, hend⟩
  | succ fuel ih =>
    obtain ⟨hsynced, hrows, hendlt, -⟩ := rounds_mergePass hA
    rw [mergePasses]
    split_ifs
    · obtain ⟨h₁, h₂, h₃⟩ := ih hsynced (hendlt hend)
      exact ⟨h₁, h₂.trans hrows, fun e he => hrows ▸ h₃ e he⟩
    · exact ⟨hsynced, hrows, fun e he => hrows ▸ hendlt hend e he⟩

/-- With fuel for every state the `while` loop ends: the last pass changes nothing. -/
theorem mergePass_mergePasses {fuel : Nat} (hA : A.Synced) (hfuel : A.liveStates.card < fuel) :
    (mergePasses fuel A).mergePass = (mergePasses fuel A, false) := by
  induction fuel generalizing A with
  | zero => exact absurd hfuel (Nat.not_lt_zero _)
  | succ fuel ih =>
    have hpass := rounds_mergePass hA
    rw [mergePasses]
    split_ifs with hflag
    · rcases hpass.changed with h | ⟨-, hlt⟩
      · rw [h] at hflag
        exact absurd hflag (by simp)
      · have hlt' : A.mergePass.1.liveStates.card < A.liveStates.card := hlt
        exact ih hpass.synced (by omega)
    · rcases hpass.changed with h | ⟨h, -⟩
      · rw [h, h]
      · exact absurd h hflag

/-- `delete_mergeable_states` ends with a pass that finds nothing to merge. -/
theorem mergePass_deleteMergeableStates (hA : A.Synced) :
    A.deleteMergeableStates.mergePass = (A.deleteMergeableStates, false) := by
  apply mergePass_mergePasses hA
  have hcard : A.liveStates.card ≤ (Finset.range A.rows).card := Finset.card_filter_le _ _
  rw [Finset.card_range] at hcard
  omega

end RPQAutomaton
end MillenniumDB
