import Mathlib.Data.List.Basic

/-!
# Iterators that stay at their end

An iterator is called in an environment that its caller may change between two calls.  A call that
does not return with the fuel is `none`.  `EndsForGood` says that after a call that has reported the
end, every later call returns, reports the end again and leaves the environment as it is.
-/

namespace MillenniumDB

/-- The operations of an iterator in environments of type `β`. -/
structure EnvIter (β : Type*) where
  State : Type
  begin : Nat → β → Option (State × β)
  next : Nat → State → β → Option (Bool × State × β)
  reset : Nat → State → β → Option (State × β)
  assignNulls : State → β → Option β

namespace EnvIter

variable {β : Type*} {I : EnvIter β} {s s' : I.State} {b b' : β} {r : Bool} {fuel : Nat}

inductive Reached (I : EnvIter β) : I.State → Prop
  | begin {fuel : Nat} {s : I.State} {b b' : β} (h : I.begin fuel b = some (s, b')) : Reached I s
  | next {fuel : Nat} {s s' : I.State} {b b' : β} {r : Bool} (hs : Reached I s)
      (h : I.next fuel s b = some (r, s', b')) : Reached I s'
  | reset {fuel : Nat} {s s' : I.State} {b b' : β} (hs : Reached I s)
      (h : I.reset fuel s b = some (s', b')) : Reached I s'

/-- In these states every call reports the end, with enough fuel, and changes nothing outside. -/
structure Silent (I : EnvIter β) (E : I.State → Prop) : Prop where
  returns : ∀ s, E s → ∀ b, ∃ fuel, ∀ more ≥ fuel, ∃ s', I.next more s b = some (false, s', b)
  stays : ∀ s, E s → ∀ fuel b r s' b', I.next fuel s b = some (r, s', b') → r = false ∧ b' = b ∧ E s'

def StaysEnded (I : EnvIter β) (s : I.State) : Prop := ∃ E, I.Silent E ∧ E s

def EndsForGood (I : EnvIter β) : Prop :=
  ∀ s, I.Reached s → ∀ fuel b s' b', I.next fuel s b = some (false, s', b') → I.StaysEnded s'

theorem silent_staysEnded : I.Silent I.StaysEnded where
  returns s h b := by
    obtain ⟨E, hE, hs⟩ := h
    exact hE.returns s hs b
  stays s h fuel b r s' b' hnext := by
    obtain ⟨E, hE, hs⟩ := h
    obtain ⟨hr, hb, hs'⟩ := hE.stays s hs fuel b r s' b' hnext
    exact ⟨hr, hb, E, hE, hs'⟩

theorem StaysEnded.next (h : I.StaysEnded s) (hnext : I.next fuel s b = some (r, s', b')) :
    r = false ∧ b' = b ∧ I.StaysEnded s' :=
  silent_staysEnded.stays s h fuel b r s' b' hnext

theorem Reached.invariant (Inv : I.State → Prop)
    (hbegin : ∀ fuel b s b', I.begin fuel b = some (s, b') → Inv s)
    (hnext : ∀ s, Inv s → ∀ fuel b r s' b', I.next fuel s b = some (r, s', b') → Inv s')
    (hreset : ∀ s, Inv s → ∀ fuel b s' b', I.reset fuel s b = some (s', b') → Inv s') (h : I.Reached s) :
    Inv s := by
  induction h with
  | begin h => exact hbegin _ _ _ _ h
  | next _ h ih => exact hnext _ ih _ _ _ _ _ h
  | reset _ h ih => exact hreset _ ih _ _ _ _ h

theorem endsForGood_of (Inv E : I.State → Prop)
    (hbegin : ∀ fuel b s b', I.begin fuel b = some (s, b') → Inv s)
    (hnext : ∀ s, Inv s → ∀ fuel b r s' b', I.next fuel s b = some (r, s', b') →
      Inv s' ∧ (r = false → E s'))
    (hreset : ∀ s, Inv s → ∀ fuel b s' b', I.reset fuel s b = some (s', b') → Inv s')
    (hsilent : I.Silent E) : I.EndsForGood := by
  intro s hs fuel b s' b' h
  have hinv : Inv s :=
    hs.invariant Inv hbegin (fun s h fuel b r s' b' hn => (hnext s h fuel b r s' b' hn).1) hreset
  exact ⟨E, hsilent, (hnext s hinv fuel b false s' b' h).2 rfl⟩

/-- The same when nothing at all changes at the end, and one step of fuel is enough. -/
theorem endsForGood_of_still (E : I.State → Prop)
    (hend : ∀ s, I.Reached s → ∀ fuel b s' b', I.next fuel s b = some (false, s', b') → E s')
    (hstill : ∀ s, E s → ∀ fuel b, I.next (fuel + 1) s b = some (false, s, b))
    (hzero : ∀ s, E s → ∀ b r, I.next 0 s b = some r → r = (false, s, b)) : I.EndsForGood := by
  have hsilent : I.Silent E := by
    constructor
    · intro s hs b
      refine ⟨1, fun more hmore => ⟨s, ?_⟩⟩
      obtain ⟨fuel, rfl⟩ : ∃ n, more = n + 1 := ⟨more - 1, by omega⟩
      exact hstill s hs fuel b
    · intro s hs fuel b r s' b' h
      have heq : (r, s', b') = (false, s, b) := by
        cases fuel with
        | zero => exact hzero s hs b _ h
        | succ fuel => exact Option.some.inj (h.symm.trans (hstill s hs fuel b))
      obtain ⟨hr, hrest⟩ := Prod.mk.inj heq
      obtain ⟨hs', hb⟩ := Prod.mk.inj hrest
      exact ⟨hr, hb, hs' ▸ hs⟩
  intro s hs fuel b s' b' h
  exact ⟨E, hsilent, hend s hs fuel b s' b' h⟩

end EnvIter

end MillenniumDB
