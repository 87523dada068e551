import Mathlib.Data.List.Basic

/-!
# Iterators whose calls may go wrong

A call of `next` has no outcome when it would do what the program must not do.  A run is a list of
results up to the call that returns nothing, with every call on the way having an outcome.
-/

namespace MillenniumDB

variable {S R : Type*}

inductive Exhausts (next : S → Option (Option R × S)) : S → List R → Prop
  | done {s s'} : next s = some (none, s') → Exhausts next s []
  | result {s r s' out} : next s = some (some r, s') → Exhausts next s' out →
      Exhausts next s (r :: out)

namespace Exhausts

variable {next : S → Option (Option R × S)} {s : S} {out out' : List R}

theorem unique (h : Exhausts next s out) (h' : Exhausts next s out') : out = out' := by
  induction h generalizing out' with
  | done hnext =>
    cases h' with
    | done _ => rfl
    | result hnext' _ =>
      rw [hnext] at hnext'
      cases hnext'
  | result hnext _ ih =>
    cases h' with
    | done hnext' =>
      rw [hnext] at hnext'
      cases hnext'
    | result hnext' hrest =>
      rw [hnext] at hnext'
      cases hnext'
      rw [ih hrest]

theorem false_of_invariant (I : S → Prop)
    (hI : ∀ s r s', I s → next s = some (r, s') → r ≠ none ∧ I s')
    (h : Exhausts next s out) : ¬ I s := by
  induction h with
  | done hnext => exact fun hs => (hI _ _ _ hs hnext).1 rfl
  | result hnext _ ih => exact fun hs => ih (hI _ _ _ hs hnext).2

/-- A relation between states and the results to come, with one spec of `next`, gives a run. -/
theorem of_relation (I : S → List R → Prop)
    (hI : ∀ s out, I s out → ∃ s', next s = some (out.head?, s') ∧ I s' out.tail)
    (h : I s out) : Exhausts next s out := by
  induction out generalizing s with
  | nil =>
    obtain ⟨s', hnext, _⟩ := hI s [] h
    exact .done hnext
  | cons r out ih =>
    obtain ⟨s', hnext, hs'⟩ := hI s (r :: out) h
    exact .result hnext (ih hs')

theorem of_next_eq {s' : S} (heq : next s = next s') (h : Exhausts next s' out) :
    Exhausts next s out := by
  cases h with
  | done hnext => exact .done (heq.trans hnext)
  | result hnext hrest => exact .result (heq.trans hnext) hrest

theorem next_ne_none (h : Exhausts next s out) : next s ≠ none := by
  cases h with
  | done hnext =>
    rw [hnext]
    exact Option.some_ne_none _
  | result hnext _ =>
    rw [hnext]
    exact Option.some_ne_none _

end Exhausts

end MillenniumDB
