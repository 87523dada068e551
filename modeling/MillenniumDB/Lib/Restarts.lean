import Mathlib.Data.List.Basic

/-!
# Operators that are restarted

An operator is started in an environment, called any number of times, and reset in another
environment.  `ResetsAfresh Ok` says that a reset that is made in a state where `Ok` holds
leaves nothing of the earlier calls: from then on the results are those of an operator that
was started in the new environment.
-/

namespace MillenniumDB

/-- The operations of an operator with environments `E`, states `S` and results `R`. -/
structure Operator (E S R : Type*) where
  start : E → S
  next : S → R × S
  reset : E → S → S

namespace Operator

variable {E S R : Type*} {O : Operator E S R} {Ok : E → S → Prop} {s t : S} {e : E}

/-- The results of the first `n` calls. -/
def results (O : Operator E S R) : Nat → S → List R
  | 0, _ => []
  | n + 1, s => (O.next s).1 :: O.results n (O.next s).2

/-- The states that calls and resets lead to, when each reset meets `Ok`. -/
inductive Reached (O : Operator E S R) (Ok : E → S → Prop) : S → Prop
  | start (e : E) : Reached O Ok (O.start e)
  | next {s : S} (h : Reached O Ok s) : Reached O Ok (O.next s).2
  | reset {s : S} {e : E} (h : Reached O Ok s) (hok : Ok e s) : Reached O Ok (O.reset e s)

/-- After a reset that meets `Ok` any number of calls returns what it returns after a start. -/
def ResetsAfresh (O : Operator E S R) (Ok : E → S → Prop) : Prop :=
  ∀ s, O.Reached Ok s → ∀ e, Ok e s → ∀ n, O.results n (O.reset e s) = O.results n (O.start e)

theorem Reached.invariant (I : S → Prop) (hstart : ∀ e, I (O.start e))
    (hnext : ∀ s, I s → I (O.next s).2) (hreset : ∀ e s, I s → Ok e s → I (O.reset e s))
    (h : O.Reached Ok s) : I s := by
  induction h with
  | start e => exact hstart e
  | next _ ih => exact hnext _ ih
  | reset _ hok ih => exact hreset _ _ ih hok

theorem results_eq_of_rel (rel : S → S → Prop)
    (hnext : ∀ s t, rel s t → (O.next s).1 = (O.next t).1 ∧ rel (O.next s).2 (O.next t).2)
    (n : Nat) (h : rel s t) : O.results n s = O.results n t := by
  induction n generalizing s t with
  | zero => rfl
  | succ n ih =>
    obtain ⟨hresult, hrel⟩ := hnext s t h
    rw [results, results, hresult, ih hrel]

theorem ResetsAfresh.of_rel (rel : S → S → Prop)
    (hnext : ∀ s t, rel s t → (O.next s).1 = (O.next t).1 ∧ rel (O.next s).2 (O.next t).2)
    (hreset : ∀ e s, O.Reached Ok s → Ok e s → rel (O.reset e s) (O.start e)) :
    O.ResetsAfresh Ok :=
  fun s hs e hok n => results_eq_of_rel rel hnext n (hreset e s hs hok)

theorem ResetsAfresh.of_eq (hreset : ∀ e s, O.Reached Ok s → Ok e s → O.reset e s = O.start e) :
    O.ResetsAfresh Ok := by
  intro s hs e hok n
  rw [hreset e s hs hok]

end Operator

end MillenniumDB
