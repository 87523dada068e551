import Mathlib.Data.List.Basic
import Mathlib.Logic.Relation
import Mathlib.Data.Set.Defs

/-!
# Runs of a labelled transition relation

A relation `step q a q'` between states and labels determines its runs, the
label words read along them, and the states they join.  The lemmas below are
what the automata of the importer and of the path queries use: composition,
splitting, monotonicity, and the shape of runs of a deterministic relation.
-/

namespace MillenniumDB

variable {σ τ α : Type*}

/-- `Run step q w q'`: some run of `step` from `q` to `q'` is labelled `w`. -/
inductive Run (step : σ → α → σ → Prop) : σ → List α → σ → Prop
  | nil (q : σ) : Run step q [] q
  | cons {q r s : σ} {a : α} {w : List α} : step q a r → Run step r w s → Run step q (a :: w) s

namespace Run

variable {step step' : σ → α → σ → Prop} {p q r : σ} {a : α} {v w : List α}

@[simp] theorem nil_iff : Run step q [] r ↔ q = r := by
  constructor
  · rintro ⟨⟩
    rfl
  · rintro rfl
    exact .nil q

theorem cons_iff : Run step q (a :: w) r ↔ ∃ s, step q a s ∧ Run step s w r := by
  constructor
  · rintro (_ | ⟨h, hr⟩)
    exact ⟨_, h, hr⟩
  · rintro ⟨s, h, hr⟩
    exact .cons h hr

theorem single (h : step q a r) : Run step q [a] r := .cons h (.nil r)

theorem append (h : Run step p v q) (h' : Run step q w r) : Run step p (v ++ w) r := by
  induction h with
  | nil => exact h'
  | cons hs _ ih => exact .cons hs (ih h')

theorem append_iff : Run step p (v ++ w) r ↔ ∃ q, Run step p v q ∧ Run step q w r := by
  constructor
  · intro h
    induction v generalizing p with
    | nil => exact ⟨p, .nil p, h⟩
    | cons a v ih =>
      obtain ⟨s, hs, hr⟩ := cons_iff.mp h
      obtain ⟨q, hq, hq'⟩ := ih hr
      exact ⟨q, .cons hs hq, hq'⟩
  · rintro ⟨q, h, h'⟩
    exact h.append h'

theorem concat_iff : Run step p (w ++ [a]) r ↔ ∃ q, Run step p w q ∧ step q a r := by
  rw [append_iff]
  constructor
  · rintro ⟨q, h, h'⟩
    obtain ⟨s, hs, hr⟩ := cons_iff.mp h'
    exact ⟨q, h, nil_iff.mp hr ▸ hs⟩
  · rintro ⟨q, h, h'⟩
    exact ⟨q, h, single h'⟩

theorem mono (hle : ∀ q a r, step q a r → step' q a r) (h : Run step p w q) :
    Run step' p w q := by
  induction h with
  | nil => exact .nil _
  | cons hs _ ih => exact .cons (hle _ _ _ hs) ih

theorem of_foldlM {f : σ → α → Option σ} (h : w.foldlM f p = some q) :
    Run (fun q a r => f q a = some r) p w q := by
  induction w generalizing p with
  | nil => exact Option.some.inj h ▸ .nil p
  | cons a w ih =>
    rw [List.foldlM_cons, Option.bind_eq_bind, Option.bind_eq_some_iff] at h
    obtain ⟨r, hr, h⟩ := h
    exact .cons hr (ih h)

theorem unique (hdet : ∀ q a r s, step q a r → step q a s → r = s)
    (h : Run step p w q) (h' : Run step p w r) : q = r := by
  induction h with
  | nil => exact nil_iff.mp h'
  | cons hs _ ih =>
    obtain ⟨s, hs', hr⟩ := cons_iff.mp h'
    exact ih (hdet _ _ _ _ hs' hs ▸ hr)

theorem reverse {flip : α → α} (hflip : ∀ p a q, step p a q → step' q (flip a) p)
    (h : Run step p w q) : Run step' q (w.map flip).reverse p := by
  induction h with
  | nil => exact .nil _
  | cons hs _ ih =>
    rw [List.map_cons, List.reverse_cons]
    exact concat_iff.mpr ⟨_, ih, hflip _ _ _ hs⟩

theorem prod_iff {step₂ : τ → α → τ → Prop} {p q : σ × τ} :
    Run (fun u a v => step u.1 a v.1 ∧ step₂ u.2 a v.2) p w q ↔
      Run step p.1 w q.1 ∧ Run step₂ p.2 w q.2 := by
  constructor
  · intro h
    induction h with
    | nil => exact ⟨.nil _, .nil _⟩
    | cons hs _ ih => exact ⟨.cons hs.1 ih.1, .cons hs.2 ih.2⟩
  · intro h
    induction w generalizing p with
    | nil => exact nil_iff.mpr (Prod.ext (nil_iff.mp h.1) (nil_iff.mp h.2))
    | cons a w ih =>
      obtain ⟨s₁, hs₁, hr₁⟩ := cons_iff.mp h.1
      obtain ⟨s₂, hs₂, hr₂⟩ := cons_iff.mp h.2
      exact .cons (r := (s₁, s₂)) ⟨hs₁, hs₂⟩ (ih ⟨hr₁, hr₂⟩)

/-- A run whose prefixes never enter `blocked` stays outside it. -/
theorem avoiding {blocked : Set σ} (h : Run step p w q)
    (hb : ∀ u v b, w = u ++ v → u ≠ [] → Run step p u b → Run step b v q → b ∉ blocked) :
    Run (fun s a s' => step s a s' ∧ s' ∉ blocked) p w q := by
  induction h with
  | nil => exact .nil _
  | @cons p r q a w hs hr ih =>
    refine .cons ⟨hs, hb [a] w r rfl (by simp) (single hs) hr⟩ (ih fun u v b huv hu hpu hbv => ?_)
    exact hb (a :: u) v b (by simp [huv]) (by simp) (.cons hs hpu) hbv

/-- A run of two relations together is a run of the first one alone, or it has a first step
of the second. -/
theorem or_split (h : Run (fun q a r => step q a r ∨ step' q a r) p w q) :
    Run step p w q ∨ ∃ u a v s s', w = u ++ a :: v ∧ Run step p u s ∧ step' s a s' ∧
      Run (fun q a r => step q a r ∨ step' q a r) s' v q := by
  induction h with
  | nil => exact .inl (.nil _)
  | @cons p r q a w hs hr ih =>
    rcases hs with hs | hs
    · rcases ih with ih | ⟨u, b, v, s, s', rfl, hu, hb, hv⟩
      · exact .inl (.cons hs ih)
      · exact .inr ⟨a :: u, b, v, s, s', rfl, .cons hs hu, hb, hv⟩
    · exact .inr ⟨[], a, w, p, r, rfl, .nil p, hs, hr⟩

end Run

end MillenniumDB
