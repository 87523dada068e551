import Mathlib.Computability.Language
import MillenniumDB.Lib.Runs
import Mathlib.Order.CompletePartialOrder

/-!
# Runs of a graph with silent edges

A relation `E p l q` has an edge from `p` to `q` that is silent when `l` is `none` and
reads a letter otherwise.  `EpsRun E p w q` says that some path from `p` to `q` reads
the word `w`.  The file has the rules by which automata constructions are verified:
composition, changes of the edge relation that keep the runs, and the languages of the
usual combinations of graphs.
-/

namespace MillenniumDB

open Computability

variable {σ τ α : Type*}

/-- `EpsRun E p w q`: some path from `p` to `q` reads the word `w`. -/
inductive EpsRun (E : σ → Option α → σ → Prop) : σ → List α → σ → Prop
  | nil (q : σ) : EpsRun E q [] q
  | eps {q r s : σ} {w : List α} : E q none r → EpsRun E r w s → EpsRun E q w s
  | sym {q r s : σ} {a : α} {w : List α} : E q (some a) r → EpsRun E r w s → EpsRun E q (a :: w) s

/-- The words read from `p` to a state of `F`. -/
def Accepts (E : σ → Option α → σ → Prop) (F : σ → Prop) (p : σ) : Language α :=
  {w | ∃ q, F q ∧ EpsRun E p w q}

namespace EpsRun

variable {E E' : σ → Option α → σ → Prop} {F F' : σ → Prop} {p q r s : σ} {a : α} {v w : List α}

theorem append (h : EpsRun E p v q) (h' : EpsRun E q w r) : EpsRun E p (v ++ w) r := by
  induction h with
  | nil => exact h'
  | eps he _ ih => exact .eps he (ih h')
  | sym ha _ ih => exact .sym ha (ih h')

theorem single_eps (h : E p none q) : EpsRun E p [] q := .eps h (.nil q)

theorem concat {l : Option α} (h : EpsRun E p w q) (he : E q l r) :
    EpsRun E p (w ++ l.toList) r := by
  cases l with
  | none => exact h.append (single_eps he)
  | some a => exact h.append (.sym he (.nil r))

theorem edge {l : Option α} (he : E p l q) (h : EpsRun E q w r) : EpsRun E p (l.toList ++ w) r := by
  cases l with
  | none => exact .eps he h
  | some a => exact .sym he h

theorem mono (hle : ∀ p l q, E p l q → E' p l q) (h : EpsRun E p w q) : EpsRun E' p w q := by
  induction h with
  | nil => exact .nil _
  | eps he _ ih => exact .eps (hle _ _ _ he) ih
  | sym ha _ ih => exact .sym (hle _ _ _ ha) ih

/-- Every edge of `E` may be a whole path of `E'`. -/
theorem simulate (hsim : ∀ p l q, E p l q → EpsRun E' p l.toList q) (h : EpsRun E p w q) :
    EpsRun E' p w q := by
  induction h with
  | nil => exact .nil _
  | eps he _ ih => exact (hsim _ _ _ he).append ih
  | sym ha _ ih => exact (hsim _ _ _ ha).append ih

theorem invariant {P : σ → Prop} (hP : ∀ p l q, P p → E p l q → P q) (hp : P p)
    (h : EpsRun E p w q) : P q := by
  induction h with
  | nil => exact hp
  | eps he _ ih => exact ih (hP _ _ _ hp he)
  | sym ha _ ih => exact ih (hP _ _ _ hp ha)

theorem congr_on {P : σ → Prop} (hP : ∀ p l q, P p → E p l q → E' p l q ∧ P q) (hp : P p)
    (h : EpsRun E p w q) : EpsRun E' p w q ∧ P q := by
  induction h with
  | nil => exact ⟨.nil _, hp⟩
  | eps he _ ih =>
    obtain ⟨he', hr⟩ := hP _ _ _ hp he
    exact ⟨.eps he' (ih hr).1, (ih hr).2⟩
  | sym ha _ ih =>
    obtain ⟨ha', hr⟩ := hP _ _ _ hp ha
    exact ⟨.sym ha' (ih hr).1, (ih hr).2⟩

theorem last_edge (h : EpsRun E p w q) :
    (p = q ∧ w = []) ∨ ∃ v l r, w = v ++ Option.toList l ∧ EpsRun E p v r ∧ E r l q := by
  induction h with
  | nil => exact .inl ⟨rfl, rfl⟩
  | @eps p r q w he h ih =>
    rcases ih with ⟨rfl, rfl⟩ | ⟨v, l, s, rfl, hv, hl⟩
    · exact .inr ⟨[], none, p, rfl, .nil p, he⟩
    · exact .inr ⟨v, l, s, rfl, .eps he hv, hl⟩
  | @sym p r q a w ha h ih =>
    rcases ih with ⟨rfl, rfl⟩ | ⟨v, l, s, rfl, hv, hl⟩
    · exact .inr ⟨[], some a, p, rfl, .nil p, ha⟩
    · exact .inr ⟨a :: v, l, s, rfl, .sym ha hv, hl⟩

theorem concat_induction {motive : List α → σ → Prop} (hnil : motive [] p)
    (hconcat : ∀ w r l q, EpsRun E p w r → E r l q → motive w r → motive (w ++ l.toList) q)
    (h : EpsRun E p w q) : motive w q := by
  have key : ∀ {r y q}, EpsRun E r y q → ∀ x, EpsRun E p x r → motive x r → motive (x ++ y) q := by
    intro r y q hy
    induction hy with
    | nil =>
      intro x _ hm
      simpa using hm
    | eps he _ ih =>
      intro x hx hm
      simpa using ih _ (hx.concat he) (hconcat _ _ _ _ hx he hm)
    | sym ha _ ih =>
      intro x hx hm
      simpa using ih _ (hx.concat ha) (hconcat _ _ _ _ hx ha hm)
  exact key h [] (.nil p) hnil

/-- A path that uses the edges of two relations stays in the first, or it takes a first
edge of the second. -/
theorem or_split (h : EpsRun (fun p l q => E p l q ∨ E' p l q) p w q) :
    EpsRun E p w q ∨ ∃ u v l r s, w = u ++ (Option.toList l ++ v) ∧ EpsRun E p u r ∧ E' r l s ∧
      EpsRun (fun p l q => E p l q ∨ E' p l q) s v q := by
  induction h with
  | nil => exact .inl (.nil _)
  | @eps p r q w he h ih =>
    rcases he with he | he
    · rcases ih with ih | ⟨u, v, l, x, y, rfl, hu, hl, hv⟩
      · exact .inl (.eps he ih)
      · exact .inr ⟨u, v, l, x, y, rfl, .eps he hu, hl, hv⟩
    · exact .inr ⟨[], w, none, p, r, rfl, .nil p, he, h⟩
  | @sym p r q a w ha h ih =>
    rcases ha with ha | ha
    · rcases ih with ih | ⟨u, v, l, x, y, rfl, hu, hl, hv⟩
      · exact .inl (.sym ha ih)
      · exact .inr ⟨a :: u, v, l, x, y, rfl, .sym ha hu, hl, hv⟩
    · exact .inr ⟨[], w, some a, p, r, rfl, .nil p, ha, h⟩

theorem embed_iff {f : τ → σ} {D : τ → Option α → τ → Prop}
    (hf : ∀ i l q, E (f i) l q ↔ ∃ j, q = f j ∧ D i l j) (i : τ) :
    EpsRun E (f i) w q ↔ ∃ j, q = f j ∧ EpsRun D i w j := by
  constructor
  · intro h
    generalize hp : f i = p at h
    induction h generalizing i with
    | nil => exact ⟨i, hp.symm, .nil i⟩
    | eps he _ ih =>
      subst hp
      obtain ⟨j, rfl, hj⟩ := (hf i _ _).mp he
      obtain ⟨k, hk, hr⟩ := ih j rfl
      exact ⟨k, hk, .eps hj hr⟩
    | sym ha _ ih =>
      subst hp
      obtain ⟨j, rfl, hj⟩ := (hf i _ _).mp ha
      obtain ⟨k, hk, hr⟩ := ih j rfl
      exact ⟨k, hk, .sym hj hr⟩
  · rintro ⟨j, rfl, h⟩
    induction h with
    | nil => exact .nil _
    | eps he _ ih => exact .eps ((hf _ _ _).mpr ⟨_, rfl, he⟩) ih
    | sym ha _ ih => exact .sym ((hf _ _ _).mpr ⟨_, rfl, ha⟩) ih

/-- States identified by `f` may be merged when silent paths join them both ways. -/
theorem quotient_iff {f : σ → τ} {D : τ → Option α → τ → Prop}
    (hsilent : ∀ p q, f p = f q → EpsRun E p [] q)
    (hedge : ∀ i l j, D i l j ↔ ∃ p q, f p = i ∧ f q = j ∧ E p l q) :
    EpsRun D (f p) w (f q) ↔ EpsRun E p w q := by
  constructor
  · intro h
    generalize hi : f p = i at h
    generalize hj : f q = j at h
    induction h generalizing p with
    | nil => exact hsilent p q (hi.trans hj.symm)
    | eps he _ ih =>
      obtain ⟨x, y, hx, hy, hxy⟩ := (hedge _ _ _).mp he
      exact (hsilent p x (hi.trans hx.symm)).append (.eps hxy (ih hy hj))
    | sym ha _ ih =>
      obtain ⟨x, y, hx, hy, hxy⟩ := (hedge _ _ _).mp ha
      exact (hsilent p x (hi.trans hx.symm)).append (.sym hxy (ih hy hj))
  · intro h
    induction h with
    | nil => exact .nil _
    | eps he _ ih => exact .eps ((hedge _ _ _).mpr ⟨_, _, rfl, rfl, he⟩) ih
    | sym ha _ ih => exact .sym ((hedge _ _ _).mpr ⟨_, _, rfl, rfl, ha⟩) ih

theorem nil_word_iff : EpsRun E p [] q ↔ Relation.ReflTransGen (fun p q => E p none q) p q := by
  constructor
  · intro h
    generalize hw : ([] : List α) = w at h
    induction h with
    | nil => exact .refl
    | eps he _ ih => exact .head he (ih hw)
    | sym => exact absurd hw (by simp)
  · intro h
    induction h with
    | refl => exact .nil p
    | tail _ he ih => exact ih.append (.single_eps he)

theorem iff_run (hE : ∀ p q, ¬ E p none q) :
    EpsRun E p w q ↔ Run (fun p a q => E p (some a) q) p w q := by
  constructor
  · intro h
    induction h with
    | nil => exact .nil _
    | eps he => exact absurd he (hE _ _)
    | sym ha _ ih => exact .cons ha ih
  · intro h
    induction h with
    | nil => exact .nil _
    | cons ha _ ih => exact .sym ha ih

end EpsRun

section Combine

variable {E D : σ → Option α → σ → Prop} {F G P : σ → Prop} {p r : σ}

theorem accepts_mono {E' : σ → Option α → σ → Prop} {F' : σ → Prop}
    (hE : ∀ p l q, E p l q → E' p l q) (hF : ∀ q, F q → F' q) (p : σ) :
    Accepts E F p ≤ Accepts E' F' p := by
  rintro w ⟨q, hq, h⟩
  exact ⟨q, hF q hq, h.mono hE⟩

theorem accepts_or (E : σ → Option α → σ → Prop) (F G : σ → Prop) (p : σ) :
    Accepts E (fun q => F q ∨ G q) p = Accepts E F p + Accepts E G p := by
  apply le_antisymm
  · rintro w ⟨q, hq | hq, h⟩
    · exact .inl ⟨q, hq, h⟩
    · exact .inr ⟨q, hq, h⟩
  · rintro w (⟨q, hq, h⟩ | ⟨q, hq, h⟩)
    · exact ⟨q, .inl hq, h⟩
    · exact ⟨q, .inr hq, h⟩

theorem accepts_mul_le {q : σ} :
    Accepts E (· = q) p * Accepts E F q ≤ Accepts E F p := by
  rintro _ ⟨u, ⟨_, rfl, hu⟩, v, ⟨f, hf, hv⟩, rfl⟩
  exact ⟨f, hf, hu.append hv⟩

theorem one_le_loops : 1 ≤ Accepts E (· = p) p := by
  rintro _ rfl
  exact ⟨p, rfl, .nil p⟩

theorem loops_eq_one (hp : ∀ q l, ¬ E q l p) : Accepts E (· = p) p = 1 := by
  apply le_antisymm _ one_le_loops
  rintro w ⟨_, rfl, h⟩
  rcases h.last_edge with ⟨-, rfl⟩ | ⟨_, _, _, _, _, hlast⟩
  · rfl
  · exact absurd hlast (hp _ _)

theorem accepts_embed {f : τ → σ} {C : τ → Option α → τ → Prop} {H : τ → Prop}
    (hf : ∀ i l q, E (f i) l q ↔ ∃ j, q = f j ∧ C i l j) (hF : ∀ j, F (f j) ↔ H j) (i : τ) :
    Accepts E F (f i) = Accepts C H i := by
  apply le_antisymm
  · rintro w ⟨q, hq, h⟩
    obtain ⟨j, rfl, hj⟩ := (EpsRun.embed_iff hf i).mp h
    exact ⟨j, (hF j).mp hq, hj⟩
  · rintro w ⟨j, hj, h⟩
    exact ⟨f j, (hF j).mpr hj, (EpsRun.embed_iff hf i).mpr ⟨j, rfl, h⟩⟩

/-- Two graphs in sequence: silent edges lead from the final states `F` of the one on `P`
to the start `r` of the other. -/
theorem accepts_sequence (hE : ∀ p l q, E p l q → P p ∧ P q)
    (hD : ∀ p l q, D p l q → ¬ P p ∧ ¬ P q) (hF : ∀ q, F q → P q) (hG : ∀ q, G q → ¬ P q)
    (hr : ¬ P r) (hp : P p) :
    Accepts (fun p l q => E p l q ∨ D p l q ∨ (F p ∧ l = none ∧ q = r)) G p =
      Accepts E F p * Accepts D G r := by
  apply le_antisymm
  · rintro w ⟨q, hq, h⟩
    have hinv : ∀ {u x}, EpsRun E p u x → P x := fun hu =>
      hu.invariant (fun _ _ _ _ he => (hE _ _ _ he).2) hp
    rcases h.or_split with h | ⟨u, v, l, x, y, rfl, hu, hbridge, hv⟩
    · exact absurd (hinv h) (hG q hq)
    · rcases hbridge with hd | ⟨hx, rfl, rfl⟩
      · exact absurd (hinv hu) (hD _ _ _ hd).1
      · -- the second graph is not left again
        have hv' : EpsRun D y v q ∧ ¬ P q := by
          refine hv.congr_on (P := fun x => ¬ P x) (fun a l b ha hab => ?_) hr
          rcases hab with he | hd | ⟨hf, -, -⟩
          · exact absurd (hE _ _ _ he).1 ha
          · exact ⟨hd, (hD _ _ _ hd).2⟩
          · exact absurd (hF a hf) ha
        exact ⟨u, ⟨x, hx, hu⟩, v, ⟨q, hq, hv'.1⟩, rfl⟩
  · rintro _ ⟨u, ⟨x, hx, hu⟩, v, ⟨q, hq, hv⟩, rfl⟩
    refine ⟨q, hq, (hu.mono fun _ _ _ => .inl).append (.eps (.inr (.inr ⟨hx, rfl, rfl⟩)) ?_)⟩
    exact hv.mono fun _ _ _ h => .inr (.inl h)

/-- A graph on `P` beside another one, to which a silent edge leads from its start `p`. -/
theorem accepts_branch (hE : ∀ p l q, E p l q → P p ∧ P q)
    (hD : ∀ p l q, D p l q → ¬ P p ∧ ¬ P q) (hF : ∀ q, F q → P q) (hG : ∀ q, G q → ¬ P q)
    (hr : ¬ P r) (hp : P p) (hstart : ∀ q l, ¬ E q l p) :
    Accepts (fun q l s => E q l s ∨ D q l s ∨ (q = p ∧ l = none ∧ s = r))
        (fun q => F q ∨ G q) p =
      Accepts E F p + Accepts D G r := by
  apply le_antisymm
  · rintro w ⟨q, hq, h⟩
    have hinv : ∀ {u x}, EpsRun E p u x → P x := fun hu =>
      hu.invariant (fun _ _ _ _ he => (hE _ _ _ he).2) hp
    rcases h.or_split with h | ⟨u, v, l, x, y, rfl, hu, hbridge, hv⟩
    · rcases hq with hq | hq
      · exact .inl ⟨q, hq, h⟩
      · exact absurd (hinv h) (hG q hq)
    · rcases hbridge with hd | ⟨rfl, rfl, rfl⟩
      · exact absurd (hinv hu) (hD _ _ _ hd).1
      · have hu' : u ∈ (1 : Language α) := by
          rw [← loops_eq_one hstart]
          exact ⟨x, rfl, hu⟩
        obtain rfl : u = [] := hu'
        have hv' : EpsRun D y v q ∧ ¬ P q := by
          refine hv.congr_on (P := fun x => ¬ P x) (fun a l b ha hab => ?_) hr
          rcases hab with he | hd | ⟨rfl, -, -⟩
          · exact absurd (hE _ _ _ he).1 ha
          · exact ⟨hd, (hD _ _ _ hd).2⟩
          · exact absurd hp ha
        rcases hq with hq | hq
        · exact absurd (hF q hq) hv'.2
        · exact .inr ⟨q, hq, hv'.1⟩
  · rintro w (⟨q, hq, h⟩ | ⟨q, hq, h⟩)
    · exact ⟨q, .inl hq, h.mono fun _ _ _ => .inl⟩
    · exact ⟨q, .inr hq, .eps (.inr (.inr ⟨rfl, rfl, rfl⟩)) (h.mono fun _ _ _ h => .inr (.inl h))⟩

/-- `E` with silent edges from the states of `F` back to `p`. -/
def loopBack (E : σ → Option α → σ → Prop) (F : σ → Prop) (p : σ) :
    σ → Option α → σ → Prop :=
  fun q l r => E q l r ∨ (F q ∧ l = none ∧ r = p)

/-- The paths with edges back to `p`, by their last return to `p`. -/
theorem EpsRun.loopBack_cases {q s : σ} {w : List α} (h : EpsRun (loopBack E F p) q w s) :
    EpsRun E q w s ∨
      w ∈ Accepts E F q * ((Accepts E F p)∗ * Accepts E (· = s) p) := by
  induction h with
  | nil => exact .inl (.nil _)
  | @eps q r s w he _ ih =>
    rcases he with he | ⟨hq, -, rfl⟩
    · rcases ih with ih | ⟨u, ⟨f, hf, hu⟩, v, hv, rfl⟩
      · exact .inl (.eps he ih)
      · exact .inr ⟨u, ⟨f, hf, .eps he hu⟩, v, hv, rfl⟩
    · right
      refine ⟨[], ⟨q, hq, .nil q⟩, w, ?_, rfl⟩
      rcases ih with ih | ih
      · exact ⟨[], Language.nil_mem_kstar _, w, ⟨s, rfl, ih⟩, rfl⟩
      · have hle : Accepts E F r * ((Accepts E F r)∗ * Accepts E (· = s) r) ≤
            (Accepts E F r)∗ * Accepts E (· = s) r := by
          rw [← mul_assoc]
          exact mul_le_mul' mul_kstar_le_kstar le_rfl
        exact hle ih
  | @sym q r s a w ha _ ih =>
    rcases ha with ha | ⟨-, ha, -⟩
    · rcases ih with ih | ⟨u, ⟨f, hf, hu⟩, v, hv, rfl⟩
      · exact .inl (.sym ha ih)
      · exact .inr ⟨a :: u, ⟨f, hf, .sym ha hu⟩, v, hv, rfl⟩
    · simp at ha

theorem kstar_le_loops : (Accepts E F p)∗ ≤ Accepts (loopBack E F p) (· = p) p := by
  apply kstar_le_of_mul_le_right one_le_loops
  have hle : Accepts E F p ≤ Accepts (loopBack E F p) (· = p) p := by
    rintro w ⟨f, hf, h⟩
    exact ⟨p, rfl, by
      simpa using (h.mono fun _ _ _ => .inl).concat (E := loopBack E F p)
        (.inr ⟨hf, rfl, rfl⟩ : loopBack E F p f none p)⟩
  calc Accepts E F p * Accepts (loopBack E F p) (· = p) p ≤
        Accepts (loopBack E F p) (· = p) p * Accepts (loopBack E F p) (· = p) p :=
        mul_le_mul' hle le_rfl
    _ ≤ Accepts (loopBack E F p) (· = p) p := accepts_mul_le

theorem accepts_loopBack :
    Accepts (loopBack E F p) (fun q => F q ∨ q = p) p =
      (Accepts E F p)∗ * (Accepts E F p + Accepts E (· = p) p) := by
  rw [← accepts_or E F (· = p)]
  apply le_antisymm
  · rintro w ⟨q, hq, h⟩
    rcases h.loopBack_cases with h | ⟨u, hu, _, ⟨v, hv, x, ⟨_, rfl, hx⟩, rfl⟩, rfl⟩
    · exact ⟨[], Language.nil_mem_kstar _, w, ⟨q, hq, h⟩, rfl⟩
    · have hle : Accepts E F p * (Accepts E F p)∗ ≤ (Accepts E F p)∗ := mul_kstar_le_kstar
      exact ⟨u ++ v, hle ⟨u, hu, v, hv, rfl⟩, x, ⟨_, hq, hx⟩, by simp⟩
  · calc (Accepts E F p)∗ * Accepts E (fun q => F q ∨ q = p) p ≤
          Accepts (loopBack E F p) (· = p) p *
            Accepts (loopBack E F p) (fun q => F q ∨ q = p) p :=
          mul_le_mul' kstar_le_loops (accepts_mono (fun _ _ _ => .inl) (fun _ => id) p)
      _ ≤ Accepts (loopBack E F p) (fun q => F q ∨ q = p) p := accepts_mul_le

end Combine

section AddEdge

variable {E : σ → Option α → σ → Prop} {F : σ → Prop} {p u v : σ} {w : List α}

/-- `E` with one more silent edge, from `u` to `v`. -/
def addSilent (E : σ → Option α → σ → Prop) (u v : σ) : σ → Option α → σ → Prop :=
  fun p l q => E p l q ∨ (p = u ∧ l = none ∧ q = v)

theorem EpsRun.addSilent (h : EpsRun E p w q) : EpsRun (addSilent E u v) p w q :=
  h.mono fun _ _ _ => .inl

theorem accepts_addSilent (hle : Accepts E F v ≤ Accepts E F u) (p : σ) :
    Accepts (addSilent E u v) F p = Accepts E F p := by
  apply le_antisymm
  · rintro w ⟨q, hq, h⟩
    induction h with
    | nil q => exact ⟨q, hq, .nil q⟩
    | eps he _ ih =>
      rcases he with he | ⟨rfl, -, rfl⟩
      · obtain ⟨f, hf, h⟩ := ih hq
        exact ⟨f, hf, .eps he h⟩
      · exact hle (ih hq)
    | sym ha _ ih =>
      rcases ha with ha | ⟨-, ha, -⟩
      · obtain ⟨f, hf, h⟩ := ih hq
        exact ⟨f, hf, .sym ha h⟩
      · exact absurd ha (by simp)
  · rintro w ⟨q, hq, h⟩
    exact ⟨q, hq, h.addSilent⟩

/-- A silent edge from a state to one that was passed on every way there adds no path. -/
theorem EpsRun.append_addSilent {r q : σ} {x y : List α}
    (hback : ∀ w, EpsRun E p w u → EpsRun E p w v) (hx : EpsRun E p x r)
    (hy : EpsRun (MillenniumDB.addSilent E u v) r y q) : EpsRun E p (x ++ y) q := by
  induction hy generalizing x with
  | nil => simpa using hx
  | eps he _ ih =>
    rcases he with he | ⟨rfl, -, rfl⟩
    · exact ih (by simpa using hx.concat he)
    · exact ih (hback x hx)
  | sym ha _ ih =>
    rcases ha with ha | ⟨-, ha, -⟩
    · simpa using ih (hx.concat ha)
    · exact absurd ha (by simp)

theorem EpsRun.of_addSilent {q : σ} (hback : ∀ w, EpsRun E p w u → EpsRun E p w v)
    (h : EpsRun (MillenniumDB.addSilent E u v) p w q) : EpsRun E p w q :=
  (EpsRun.nil p).append_addSilent hback h

theorem accepts_addSilent_of_back (hback : ∀ w, EpsRun E p w u → EpsRun E p w v) :
    Accepts (addSilent E u v) F p = Accepts E F p := by
  apply le_antisymm
  · rintro w ⟨q, hq, h⟩
    exact ⟨q, hq, h.of_addSilent hback⟩
  · rintro w ⟨q, hq, h⟩
    exact ⟨q, hq, h.addSilent⟩

end AddEdge

/-- The edges after the silent edges of `p` are replaced by what they lead to. -/
def bypass (E : σ → Option α → σ → Prop) (p : σ) : σ → Option α → σ → Prop := fun q l r =>
  (E q l r ∧ (q = p → l ≠ none)) ∨
    (q = p ∧ l ≠ none ∧ ∃ s, EpsRun E p [] s ∧ E s l r)

theorem accepts_bypass (E : σ → Option α → σ → Prop) (F : σ → Prop) (p q : σ) :
    Accepts (bypass E p) (fun s => F s ∨ (s = p ∧ ∃ f, F f ∧ EpsRun E p [] f)) q =
      Accepts E F q := by
  apply le_antisymm
  · rintro w ⟨f, hf, h⟩
    have hE : EpsRun E q w f := by
      refine h.simulate fun x l y hxy => ?_
      rcases hxy with ⟨hxy, -⟩ | ⟨rfl, -, s, hs, hxy⟩
      · simpa using EpsRun.edge hxy (.nil y)
      · simpa using hs.concat hxy
    rcases hf with hf | ⟨rfl, f', hf', hs⟩
    · exact ⟨f, hf, hE⟩
    · exact ⟨f', hf', by simpa using hE.append hs⟩
  · rintro w ⟨f, hf, h⟩
    set F' : σ → Prop := fun s => F s ∨ (s = p ∧ ∃ f, F f ∧ EpsRun E p [] f)
    -- the second half carries the paths that have silently left `p`
    suffices key : w ∈ Accepts (bypass E p) F' q ∧
        (EpsRun E p [] q → w ∈ Accepts (bypass E p) F' p) from key.1
    induction h with
    | nil q => exact ⟨⟨q, .inl hf, .nil q⟩, fun hq => ⟨p, .inr ⟨rfl, q, hf, hq⟩, .nil p⟩⟩
    | @eps x y f w he _ ih =>
      obtain ⟨hy, hyp⟩ := ih hf
      refine ⟨?_, fun hx => hyp (by simpa using hx.concat he)⟩
      by_cases hxp : x = p
      · subst hxp
        exact hyp (.single_eps he)
      · obtain ⟨f', hf', h'⟩ := hy
        exact ⟨f', hf', .eps (.inl ⟨he, fun h => absurd h hxp⟩) h'⟩
    | @sym x y f a w ha _ ih =>
      obtain ⟨⟨f', hf', h'⟩, -⟩ := ih hf
      refine ⟨⟨f', hf', .sym (.inl ⟨ha, fun _ => by simp⟩) h'⟩, fun hx => ?_⟩
      exact ⟨f', hf', .sym (.inr ⟨rfl, by simp, x, hx, ha⟩) h'⟩

end MillenniumDB
