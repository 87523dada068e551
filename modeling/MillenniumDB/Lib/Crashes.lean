import Mathlib.Logic.Basic

/-!
# Programs that may crash

A program stands for another one on other states: from related states it ends as that one does, in
related states, unless it crashes.  A crash is not caught, and leaves no state.
-/

namespace MillenniumDB

inductive Stop (ε : Type)
  | thrown (e : ε)
  | crashed

/-- How a program that may crash ends, beside the one that it stands for. -/
inductive Refines {ε σ τ : Type} (R : σ → τ → Prop) :
    EStateM.Result (Stop ε) σ Unit → EStateM.Result ε τ Unit → Prop
  | ok {s : σ} {t : τ} : R s t → Refines R (.ok () s) (.ok () t)
  | thrown {e : ε} {s : σ} {t : τ} : R s t → Refines R (.error (.thrown e) s) (.error e t)
  | crashed {s : σ} {result : EStateM.Result ε τ Unit} : Refines R (.error .crashed s) result

section

variable {ε σ τ ι : Type} {R : σ → τ → Prop} {s : σ} {t : τ}

def survivor : EStateM.Result (Stop ε) σ Unit → Option σ
  | .ok _ s => some s
  | .error (.thrown _) s => some s
  | .error .crashed _ => none

def finalState : EStateM.Result ε τ Unit → τ
  | .ok _ t => t
  | .error _ t => t

def pass (x : EStateM (Stop ε) σ Unit) : EStateM (Stop ε) σ Unit :=
  try x catch
    | .thrown _ => pure ()
    | .crashed => throw .crashed

theorem tryCatch_apply {α : Type} (x : EStateM ε σ α) (handle : ε → EStateM ε σ α) (s : σ) :
    tryCatch x handle s = match x s with
      | .ok a s => .ok a s
      | .error e s => handle e s := by
  change EStateM.tryCatch x handle s = _
  delta EStateM.tryCatch
  dsimp only
  cases x s <;> rfl

theorem Refines.pass {x : EStateM (Stop ε) σ Unit} {y : EStateM ε τ Unit}
    (h : Refines R (x s) (y t)) :
    Refines R (MillenniumDB.pass x s) ((try y catch _ => Pure.pure ()) t) := by
  rw [MillenniumDB.pass, tryCatch_apply, tryCatch_apply]
  generalize x s = result at h
  generalize y t = result' at h
  cases h with
  | ok hR => exact .ok hR
  | thrown hR => exact .ok hR
  | crashed => exact .crashed

theorem Refines.survivor {result : EStateM.Result (Stop ε) σ Unit}
    {result' : EStateM.Result ε τ Unit} (h : Refines R result result')
    (hs : MillenniumDB.survivor result = some s) : R s (finalState result') := by
  cases h with
  | ok hR => exact Option.some.inj hs ▸ hR
  | thrown hR => exact Option.some.inj hs ▸ hR
  | crashed => cases hs

theorem Refines.seq {x x' : EStateM (Stop ε) σ Unit} {y y' : EStateM ε τ Unit}
    (h : Refines R (x s) (y t))
    (hrest : ∀ s' t', y t = .ok () t' → R s' t' → Refines R (x' s') (y' t')) :
    Refines R ((do x; x') s) ((do y; y') t) := by
  simp only [bind, EStateM.bind]
  generalize x s = result at h
  generalize hy : y t = result' at h
  cases h with
  | ok hR => exact hrest _ _ hy hR
  | thrown hR => exact .thrown hR
  | crashed => exact .crashed

/-- A loop, with a condition on the abstract states in which it gets to an item. -/
theorem Refines.forM {f : ι → EStateM (Stop ε) σ Unit} {g : ι → EStateM ε τ Unit}
    {C : ι → τ → Prop}
    (hstep : ∀ item s t, R s t → C item t → Refines R (f item s) (g item t)) (items : List ι)
    (hR : R s t) (hC : ∀ done item rest t', items = done ++ item :: rest →
      forM done g t = .ok () t' → C item t') :
    Refines R (forM items f s) (forM items g t) := by
  induction items generalizing s t with
  | nil => exact .ok hR
  | cons item items ih =>
    rw [List.forM_cons, List.forM_cons]
    refine Refines.seq (hstep item s t hR (hC [] item items t rfl rfl)) fun s' t' hitem hR' => ?_
    -- what the rest of the loop has done comes behind the first item
    refine ih hR' fun done item' rest t'' hitems hdone => ?_
    apply hC (item :: done) item' rest t'' (congrArg _ hitems)
    simp only [List.forM_cons, bind, EStateM.bind, hitem, hdone]

end
end MillenniumDB
