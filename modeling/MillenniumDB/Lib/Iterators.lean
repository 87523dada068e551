import Mathlib.Data.List.Basic

/-!
# Iterators

A pull iterator is a state with a `next` operation that returns a result or nothing and
leaves a new state.  `Yields next s out` says what repeated calls of `next` from the state
`s` return: the results of `out` in order, and nothing on every later call.
-/

namespace MillenniumDB

variable {S R : Type*}

/-- The result of the call of `next` that has `k` calls before it. -/
def nthNext (next : S → Option R × S) : S → Nat → Option R
  | s, 0 => (next s).1
  | s, k + 1 => nthNext next (next s).2 k

/-- Repeated calls return exactly `out`, and then nothing forever. -/
def Yields (next : S → Option R × S) (s : S) (out : List R) : Prop :=
  ∀ k, nthNext next s k = out[k]?

namespace Yields

variable {next : S → Option R × S} {s : S} {r : R} {out out' : List R}

theorem unique (h : Yields next s out) (h' : Yields next s out') : out = out' :=
  List.ext_getElem? fun k => (h k).symm.trans (h' k)

theorem cons (hr : (next s).1 = some r) (h : Yields next (next s).2 out) :
    Yields next s (r :: out) := by
  intro k
  cases k with
  | zero => simpa [nthNext] using hr
  | succ k => simpa [nthNext] using h k

theorem nil_of_none (hr : (next s).1 = none) (h : Yields next (next s).2 []) :
    Yields next s [] := by
  intro k
  cases k with
  | zero => simpa [nthNext] using hr
  | succ k => simpa [nthNext] using h k

theorem of_head_tail (hr : (next s).1 = out.head?) (h : Yields next (next s).2 out.tail) :
    Yields next s out := by
  cases out with
  | nil => exact nil_of_none hr h
  | cons r out => exact cons hr h

/-- The first call may return nothing, by an invariant that keeps `next` from returning. -/
theorem nil_of_invariant (I : S → Prop) (hI : ∀ s, I s → (next s).1 = none ∧ I (next s).2)
    (hs : I s) : Yields next s [] := by
  intro k
  induction k generalizing s with
  | zero => simpa [nthNext] using (hI s hs).1
  | succ k ih => simpa [nthNext] using ih (hI s hs).2

/-- A relation between states and the results to come, with one spec of `next`, gives what
repeated calls return. -/
theorem of_relation (I : S → List R → Prop)
    (hnil : ∀ s, I s [] → (next s).1 = none ∧ I (next s).2 [])
    (hcons : ∀ s r out, I s (r :: out) → (next s).1 = some r ∧ I (next s).2 out)
    (h : I s out) : Yields next s out := by
  induction out generalizing s with
  | nil => exact nil_of_invariant (I · []) hnil h
  | cons r out ih =>
    obtain ⟨hr, hs⟩ := hcons s r out h
    exact .cons hr (ih hs)

theorem map {T R' : Type*} {next' : T → Option R' × T} (rel : S → T → Prop) (g : R → R')
    (hstep : ∀ s t, rel s t → (next' t).1 = (next s).1.map g ∧ rel (next s).2 (next' t).2)
    {t : T} (h : Yields next s out) (hst : rel s t) : Yields next' t (out.map g) := by
  intro k
  rw [List.getElem?_map, ← h k]
  clear h
  induction k generalizing s t with
  | zero => exact (hstep s t hst).1
  | succ k ih => exact ih (hstep s t hst).2

end Yields

theorem foldl_set_eq {P α : Type*} {set : P → List α → P} {bound : List α → P}
    (hset : ∀ vars vars', set (bound vars) vars' = bound (vars ++ vars')) (inputs : List (List α))
    (vars : List α) : inputs.foldl set (bound vars) = bound (vars ++ inputs.flatten) := by
  induction inputs generalizing vars with
  | nil => simp
  | cons vars' inputs ih =>
    rw [List.foldl_cons, hset, ih, List.flatten_cons, List.append_assoc]

end MillenniumDB
