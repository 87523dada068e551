import Mathlib.Data.Set.Lattice

/-!
# Trees with variables

A tree has variables at its nodes.  It is well designed when a variable of a subtree that occurs
outside of the subtree is one of the node the subtree is attached to.  A traversal that keeps
the variables it has seen decides this: a variable that was seen before has to be one of the
parent's.
-/

namespace MillenniumDB

inductive VarTree (α : Type)
  | node (vars : List α) (children : List (VarTree α))

namespace VarTree

variable {α : Type}

theorem induct {motive : VarTree α → Prop}
    (node : ∀ vs ts, (∀ t ∈ ts, motive t) → motive (.node vs ts)) (t : VarTree α) : motive t :=
  VarTree.rec (motive_1 := motive) (motive_2 := fun ts => ∀ t ∈ ts, motive t)
    (fun vs ts h => node vs ts h) (by simp) (fun _ _ h hs => List.forall_mem_cons.mpr ⟨h, hs⟩) t

mutual

def vars : VarTree α → Set α
  | node vs ts => {x | x ∈ vs} ∪ varsAll ts

def varsAll : List (VarTree α) → Set α
  | [] => ∅
  | t :: ts => vars t ∪ varsAll ts

end

mutual

/-- Every variable of a child that occurs outside of the child, in the rest of the tree or in
`outside`, is one of the node. -/
def WellDesigned (outside : Set α) : VarTree α → Prop
  | node vs ts => ChildrenWellDesigned (outside ∪ {x | x ∈ vs}) {x | x ∈ vs} ts

/-- The children of a node with the variables `parent`; what is in `outside` occurs outside of
all of them. -/
def ChildrenWellDesigned (outside parent : Set α) : List (VarTree α) → Prop
  | [] => True
  | t :: ts =>
    (∀ x ∈ vars t, x ∈ outside ∪ varsAll ts → x ∈ parent) ∧
      WellDesigned (outside ∪ varsAll ts) t ∧ ChildrenWellDesigned (outside ∪ vars t) parent ts

end

section check

variable [DecidableEq α]

/-- The variables of a node, checked against those seen and those of the parent. -/
def checkVars (parentVars globalVars vs : List α) : Option (List α) :=
  if vs.all fun x => x ∉ globalVars ∨ x ∈ parentVars then some (globalVars ++ vs) else none

mutual

/-- The traversal: the variables seen after the tree, if nothing is thrown. -/
def check (parentVars globalVars : List α) : VarTree α → Option (List α)
  | node vs ts =>
    match checkVars parentVars globalVars vs with
    | none => none
    | some globalVars => checkAll vs globalVars ts

def checkAll (parentVars globalVars : List α) : List (VarTree α) → Option (List α)
  | [] => some globalVars
  | t :: ts =>
    match check parentVars globalVars t with
    | none => none
    | some globalVars => checkAll parentVars globalVars ts

end

variable {parentVars globalVars globalVars' vs : List α} {t : VarTree α} {ts : List (VarTree α)}
  {outside later : Set α}

theorem checkVars_eq_some (h : checkVars parentVars globalVars vs = some globalVars') :
    (∀ x ∈ vs, x ∈ globalVars → x ∈ parentVars) ∧ globalVars' = globalVars ++ vs := by
  unfold checkVars at h
  split at h
  · next hall =>
    refine ⟨fun x hx hglobal => ?_, (Option.some.inj h).symm⟩
    have := List.all_eq_true.mp hall x hx
    rw [decide_eq_true_eq] at this
    exact this.resolve_left (not_not.mpr hglobal)
  · cases h

theorem mem_of_check (t : VarTree α) : ∀ {parentVars globalVars globalVars' : List α},
    check parentVars globalVars t = some globalVars' →
    ∀ x, x ∈ globalVars' ↔ x ∈ globalVars ∨ x ∈ t.vars := by
  induction t using induct with
  | node vs ts ih =>
    intro parentVars globalVars globalVars' h x
    rw [check] at h
    split at h
    · cases h
    · next seen hvars =>
      obtain ⟨-, rfl⟩ := checkVars_eq_some hvars
      have hall : ∀ ts : List (VarTree α), (∀ t ∈ ts, ∀ {parentVars globalVars globalVars'},
          check parentVars globalVars t = some globalVars' →
          ∀ x, x ∈ globalVars' ↔ x ∈ globalVars ∨ x ∈ t.vars) → ∀ {seen : List α},
          checkAll vs seen ts = some globalVars' → (x ∈ globalVars' ↔ x ∈ seen ∨ x ∈ varsAll ts) := by
        intro ts ih
        induction ts with
        | nil =>
          intro seen h
          cases h
          simp [varsAll]
        | cons t ts ihts =>
          intro seen h
          rw [checkAll] at h
          obtain ⟨ht, hts⟩ := List.forall_mem_cons.mp ih
          split at h
          · cases h
          · next seen' hseen =>
            rw [ihts hts h, ht hseen x, varsAll, Set.mem_union, or_assoc]
      rw [hall ts ih h, vars, Set.mem_union, List.mem_append, or_assoc]
      rfl

theorem parent_of_check (t : VarTree α) : ∀ {parentVars globalVars globalVars' : List α},
    check parentVars globalVars t = some globalVars' →
    ∀ x ∈ t.vars, x ∈ globalVars → x ∈ parentVars := by
  induction t using induct with
  | node vs ts ih =>
    intro parentVars globalVars globalVars' h x hx hglobal
    rw [check] at h
    split at h
    · cases h
    · next seen hvars =>
      obtain ⟨hcheck, rfl⟩ := checkVars_eq_some hvars
      have hall : ∀ ts : List (VarTree α), (∀ t ∈ ts, ∀ {parentVars globalVars globalVars'},
          check parentVars globalVars t = some globalVars' →
          ∀ x ∈ t.vars, x ∈ globalVars → x ∈ parentVars) → ∀ {seen : List α},
          checkAll vs seen ts = some globalVars' → x ∈ varsAll ts → x ∈ seen → x ∈ vs := by
        intro ts ih
        induction ts with
        | nil => exact fun _ hx => absurd hx (by simp [varsAll])
        | cons t ts ihts =>
          intro seen h hx hseen
          rw [checkAll] at h
          obtain ⟨ht, hts⟩ := List.forall_mem_cons.mp ih
          split at h
          · cases h
          · next seen' hcheck =>
            rw [varsAll] at hx
            rcases hx with hx | hx
            · exact ht hcheck x hx hseen
            · exact ihts hts h hx ((mem_of_check t hcheck x).mpr (.inl hseen))
      rcases hx with hx | hx
      · exact hcheck x hx hglobal
      · exact hcheck x (hall ts ih h hx (List.mem_append_left _ hglobal)) hglobal

/-- A tree that passes is well designed, if what occurs later and in it is one of the parent's
variables. -/
theorem wellDesigned_of_check (t : VarTree α) :
    ∀ {parentVars globalVars globalVars' : List α} {later : Set α},
    check parentVars globalVars t = some globalVars' → (∀ x ∈ parentVars, x ∈ globalVars) →
    (∀ x ∈ t.vars, x ∈ later → x ∈ parentVars) →
    WellDesigned ({x | x ∈ globalVars} ∪ later) t := by
  induction t using induct with
  | node vs ts ih =>
    intro parentVars globalVars globalVars' later h hparent hlater
    rw [check] at h
    split at h
    · cases h
    · next seen hvars =>
      obtain ⟨hcheck, rfl⟩ := checkVars_eq_some hvars
      have hall : ∀ ts : List (VarTree α), (∀ t ∈ ts,
          ∀ {parentVars globalVars globalVars' : List α} {later : Set α},
          check parentVars globalVars t = some globalVars' →
          (∀ x ∈ parentVars, x ∈ globalVars) → (∀ x ∈ t.vars, x ∈ later → x ∈ parentVars) →
          WellDesigned ({x | x ∈ globalVars} ∪ later) t) → ∀ {seen : List α},
          checkAll vs seen ts = some globalVars' → (∀ x ∈ vs, x ∈ seen) →
          (∀ x ∈ varsAll ts, x ∈ later → x ∈ seen) →
          ChildrenWellDesigned ({x | x ∈ seen} ∪ later) {x | x ∈ vs} ts := by
        intro ts ih
        induction ts with
        | nil => exact fun _ _ _ => trivial
        | cons t ts ihts =>
          intro seen h hvs hlater
          rw [checkAll] at h
          obtain ⟨ht, hts⟩ := List.forall_mem_cons.mp ih
          split at h
          · cases h
          · next seen' hcheck =>
            have hmem := mem_of_check t hcheck
            have hrest : ∀ x ∈ varsAll ts, x ∈ seen' → x ∈ vs := by
              -- the rest of the children, one after the other
              clear ih ihts hts ht hlater
              intro x hx hseen
              revert hx hseen
              clear hcheck hmem
              induction ts generalizing seen' with
              | nil => exact fun hx => absurd hx (by simp [varsAll])
              | cons t' ts ih =>
                intro hx hseen
                rw [checkAll] at h
                split at h
                · cases h
                · next seen'' hcheck =>
                  rw [varsAll] at hx
                  rcases hx with hx | hx
                  · exact parent_of_check t' hcheck x hx hseen
                  · exact ih seen'' h hx ((mem_of_check t' hcheck x).mpr (.inl hseen))
            have hout : ∀ x ∈ t.vars, x ∈ later ∪ varsAll ts → x ∈ vs := by
              intro x hx hxlater
              rcases hxlater with hxlater | hxlater
              · exact parent_of_check t hcheck x hx (hlater x (.inl hx) hxlater)
              · exact hrest x hxlater ((hmem x).mpr (.inr hx))
            have hassoc : ({x | x ∈ seen} ∪ later ∪ varsAll ts : Set α) =
                {x | x ∈ seen} ∪ (later ∪ varsAll ts) := Set.union_assoc ..
            refine ⟨fun x hx hxout => ?_, ?_, ?_⟩
            · rw [hassoc] at hxout
              rcases hxout with hxout | hxout
              · exact parent_of_check t hcheck x hx hxout
              · exact hout x hx hxout
            · rw [hassoc]
              exact ht hcheck hvs hout
            · have hseen : ({x | x ∈ seen} ∪ later ∪ t.vars : Set α) =
                  {x | x ∈ seen'} ∪ later := by
                ext x
                simp only [Set.mem_union, Set.mem_ofPred_eq, hmem]
                tauto
              rw [hseen]
              exact ihts hts h (fun x hx => (hmem x).mpr (.inl (hvs x hx)))
                fun x hx hxlater => (hmem x).mpr (.inl (hlater x (.inr hx) hxlater))
      have hunion : ({x | x ∈ globalVars} ∪ later ∪ {x | x ∈ vs} : Set α) =
          {x | x ∈ globalVars ++ vs} ∪ later := by
        ext x
        simp only [Set.mem_union, Set.mem_ofPred_eq, List.mem_append]
        tauto
      rw [WellDesigned, hunion]
      exact hall ts ih h (fun x hx => List.mem_append_right _ hx) fun x hx hxlater =>
        List.mem_append_left _ (hparent x (hlater x (.inr hx) hxlater))

theorem check_of_wellDesigned (t : VarTree α) :
    ∀ {parentVars globalVars : List α} {outside : Set α}, WellDesigned outside t →
    (∀ x ∈ globalVars, x ∈ outside) → (∀ x ∈ t.vars, x ∈ globalVars → x ∈ parentVars) →
    (check parentVars globalVars t).isSome := by
  induction t using induct with
  | node vs ts ih =>
    intro parentVars globalVars outside h hglobal hparent
    have hvars : checkVars parentVars globalVars vs = some (globalVars ++ vs) := by
      rw [checkVars, if_pos]
      refine List.all_eq_true.mpr fun x hx => ?_
      rw [decide_eq_true_eq]
      by_cases hseen : x ∈ globalVars
      · exact .inr (hparent x (.inl hx) hseen)
      · exact .inl hseen
    rw [check, hvars]
    dsimp only
    have hall : ∀ ts : List (VarTree α), (∀ t ∈ ts,
        ∀ {parentVars globalVars : List α} {outside : Set α}, WellDesigned outside t →
        (∀ x ∈ globalVars, x ∈ outside) → (∀ x ∈ t.vars, x ∈ globalVars → x ∈ parentVars) →
        (check parentVars globalVars t).isSome) → ∀ {seen : List α} {outside : Set α},
        ChildrenWellDesigned outside {x | x ∈ vs} ts → (∀ x ∈ seen, x ∈ outside) →
        (checkAll vs seen ts).isSome := by
      intro ts ih
      induction ts with
      | nil => exact fun _ _ => rfl
      | cons t ts ihts =>
        intro seen outside h hseen
        obtain ⟨ht, hts⟩ := List.forall_mem_cons.mp ih
        obtain ⟨hout, hwell, hrest⟩ := h
        obtain ⟨seen', hcheck⟩ := Option.isSome_iff_exists.mp
          (ht hwell (fun x hx => .inl (hseen x hx))
            fun x hx hxseen => hout x hx (.inl (hseen x hxseen)))
        rw [checkAll, hcheck]
        refine ihts hts hrest fun x hx => ?_
        rcases (mem_of_check t hcheck x).mp hx with hx | hx
        · exact .inl (hseen x hx)
        · exact .inr hx
    refine hall ts ih h fun x hx => ?_
    rcases List.mem_append.mp hx with hx | hx
    · exact .inl (hglobal x hx)
    · exact .inr hx

theorem check_isSome_iff (t : VarTree α) : (check [] [] t).isSome ↔ WellDesigned ∅ t := by
  constructor
  · intro h
    obtain ⟨seen, hcheck⟩ := Option.isSome_iff_exists.mp h
    have hlater : ∀ x ∈ t.vars, x ∈ (∅ : Set α) → x ∈ ([] : List α) := fun _ _ h => h.elim
    have := wellDesigned_of_check t hcheck (by simp) hlater
    simpa using this
  · intro h
    exact check_of_wellDesigned t h (by simp) (by simp)

end check

section occurrences

variable {β : Type} {x : α} {y : β} {out parent : Prop} {t : VarTree α} {t' : VarTree β}

mutual

/-- What a tree has to satisfy for one variable, which occurs outside of the tree or not. -/
def WellDesignedAt (x : α) (out : Prop) : VarTree α → Prop
  | node vs ts => ChildrenWellDesignedAt x (out ∨ x ∈ vs) (x ∈ vs) ts

def ChildrenWellDesignedAt (x : α) (out parent : Prop) : List (VarTree α) → Prop
  | [] => True
  | t :: ts =>
    (x ∈ vars t → out ∨ x ∈ varsAll ts → parent) ∧ WellDesignedAt x (out ∨ x ∈ varsAll ts) t ∧
      ChildrenWellDesignedAt x (out ∨ x ∈ vars t) parent ts

end

theorem wellDesigned_iff_forall (t : VarTree α) : ∀ outside : Set α,
    WellDesigned outside t ↔ ∀ x, WellDesignedAt x (x ∈ outside) t := by
  induction t using induct with
  | node vs ts ih =>
    intro outside
    have hall : ∀ ts : List (VarTree α),
        (∀ t ∈ ts, ∀ outside : Set α, WellDesigned outside t ↔ ∀ x, WellDesignedAt x (x ∈ outside) t) →
        ∀ outside parent : Set α, ChildrenWellDesigned outside parent ts ↔
          ∀ x, ChildrenWellDesignedAt x (x ∈ outside) (x ∈ parent) ts := by
      intro ts ih
      induction ts with
      | nil => simp [ChildrenWellDesigned, ChildrenWellDesignedAt]
      | cons t ts ihts =>
        intro outside parent
        obtain ⟨ht, hts⟩ := List.forall_mem_cons.mp ih
        simp only [ChildrenWellDesigned, ChildrenWellDesignedAt, ht, ihts hts, forall_and,
          Set.mem_union]
    exact hall ts ih _ _

mutual

def OccursAlike (x : α) (y : β) : VarTree α → VarTree β → Prop
  | node vs ts, node ws us => (x ∈ vs ↔ y ∈ ws) ∧ OccursAlikeAll x y ts us

def OccursAlikeAll (x : α) (y : β) : List (VarTree α) → List (VarTree β) → Prop
  | [], [] => True
  | t :: ts, u :: us => OccursAlike x y t u ∧ OccursAlikeAll x y ts us
  | _, _ => False

end

theorem OccursAlike.iff (t : VarTree α) : ∀ {u : VarTree β}, OccursAlike x y t u →
    (x ∈ t.vars ↔ y ∈ u.vars) ∧ ∀ out, WellDesignedAt x out t ↔ WellDesignedAt y out u := by
  induction t using VarTree.induct with
  | node vs ts ih =>
    intro u h
    obtain ⟨ws, us⟩ := u
    have hall : ∀ ts : List (VarTree α), (∀ t ∈ ts, ∀ {u : VarTree β}, OccursAlike x y t u →
        (x ∈ t.vars ↔ y ∈ u.vars) ∧ ∀ out, WellDesignedAt x out t ↔ WellDesignedAt y out u) →
        ∀ {us : List (VarTree β)}, OccursAlikeAll x y ts us →
        (x ∈ varsAll ts ↔ y ∈ varsAll us) ∧ ∀ out parent,
          ChildrenWellDesignedAt x out parent ts ↔ ChildrenWellDesignedAt y out parent us := by
      intro ts ih
      induction ts with
      | nil =>
        intro us h
        cases us with
        | nil => simp [varsAll, ChildrenWellDesignedAt]
        | cons => simp [OccursAlikeAll] at h
      | cons t ts ihts =>
        intro us h
        obtain ⟨ht, hts⟩ := List.forall_mem_cons.mp ih
        cases us with
        | nil => simp [OccursAlikeAll] at h
        | cons u us =>
          obtain ⟨hvars, hwell⟩ := ht h.1
          obtain ⟨hvarsAll, hchildren⟩ := ihts hts h.2
          refine ⟨by simp only [varsAll, Set.mem_union, hvars, hvarsAll], fun out parent => ?_⟩
          simp only [ChildrenWellDesignedAt, hvars, hvarsAll, hwell, hchildren]
    rw [OccursAlike] at h
    obtain ⟨hvarsAll, hchildren⟩ := hall ts ih h.2
    refine ⟨?_, fun out => ?_⟩
    · rw [vars, vars, Set.mem_union, Set.mem_union, hvarsAll]
      exact or_congr_left h.1
    · rw [WellDesignedAt, WellDesignedAt, h.1, hchildren]

mutual

theorem wellDesignedAt_of_notMem (t : VarTree α) (hx : x ∉ t.vars) (out : Prop) :
    WellDesignedAt x out t := by
  match t with
  | node vs ts =>
    rw [vars, Set.mem_union, not_or] at hx
    exact childrenWellDesignedAt_of_notMem ts hx.2 _ _

theorem childrenWellDesignedAt_of_notMem (ts : List (VarTree α)) (hx : x ∉ varsAll ts)
    (out parent : Prop) : ChildrenWellDesignedAt x out parent ts := by
  match ts with
  | [] => exact trivial
  | t :: ts =>
    rw [varsAll, Set.mem_union, not_or] at hx
    exact ⟨fun hmem => absurd hmem hx.1, wellDesignedAt_of_notMem t hx.1 _,
      childrenWellDesignedAt_of_notMem ts hx.2 _ _⟩

end

end occurrences

section numbered

variable {β : Type} (f : β → α) (index : α → Option Nat)

mutual

/-- The tree `t'` is `t` with further variables, which are numbered from `lo` to `hi`: those of
different nodes have different numbers. -/
def Adds (lo : Nat) (t : VarTree β) (t' : VarTree α) (hi : Nat) : Prop :=
  match t, t' with
  | node vs ts, node vs' ts' =>
    ∃ mid, lo ≤ mid ∧ (∀ x ∈ vs, index (f x) = none) ∧
      (∀ y, index y = none → (y ∈ vs' ↔ ∃ x ∈ vs, f x = y)) ∧
      (∀ y ∈ vs', ∀ n, index y = some n → lo ≤ n ∧ n < mid) ∧ AddsAll mid ts ts' hi

def AddsAll (lo : Nat) (ts : List (VarTree β)) (ts' : List (VarTree α)) (hi : Nat) : Prop :=
  match ts, ts' with
  | [], [] => lo = hi
  | t :: ts, t' :: ts' => ∃ mid, Adds lo t t' mid ∧ AddsAll mid ts ts' hi
  | _, _ => False

end

variable {f index} {lo hi : Nat} {vs : List β} {ts : List (VarTree β)} {ts' : List (VarTree α)}

structure AddsVars (f : β → α) (index : α → Option Nat) (lo : Nat) (V : Set β) (V' : Set α)
    (hi : Nat) : Prop where
  le : lo ≤ hi
  plain : ∀ x ∈ V, index (f x) = none
  mem_iff : ∀ y, index y = none → (y ∈ V' ↔ ∃ x ∈ V, f x = y)
  numbered : ∀ y ∈ V', ∀ n, index y = some n → lo ≤ n ∧ n < hi

theorem AddsVars.union {mid : Nat} {V W : Set β} {V' W' : Set α}
    (h : AddsVars f index lo V V' mid) (h' : AddsVars f index mid W W' hi) :
    AddsVars f index lo (V ∪ W) (V' ∪ W') hi where
  le := h.le.trans h'.le
  plain x hx := hx.elim (h.plain x) (h'.plain x)
  mem_iff y hy := by
    rw [Set.mem_union, h.mem_iff y hy, h'.mem_iff y hy]
    simp only [Set.mem_union, or_and_right, exists_or]
  numbered y hy n hn := by
    have := h.le
    have := h'.le
    rcases hy with hy | hy
    · have := h.numbered y hy n hn
      omega
    · have := h'.numbered y hy n hn
      omega

theorem addsVars_of_adds (t : VarTree β) : ∀ {t' : VarTree α} {lo hi : Nat},
    Adds f index lo t t' hi → AddsVars f index lo t.vars t'.vars hi := by
  induction t using induct with
  | node vs ts ih =>
    intro t' lo hi h
    obtain ⟨vs', ts'⟩ := t'
    rw [Adds] at h
    obtain ⟨mid, hle, hplain, hmem, hnumbered, hts⟩ := h
    have hall : ∀ (ts : List (VarTree β)), (∀ t ∈ ts, ∀ {t' : VarTree α} {lo hi : Nat},
        Adds f index lo t t' hi → AddsVars f index lo t.vars t'.vars hi) →
        ∀ {ts' : List (VarTree α)} {lo : Nat}, AddsAll f index lo ts ts' hi →
        AddsVars f index lo (varsAll ts) (varsAll ts') hi := by
      intro ts ih
      induction ts with
      | nil =>
        intro ts' lo h
        cases ts' with
        | nil =>
          rw [AddsAll] at h
          subst h
          exact ⟨le_rfl, by simp [varsAll], by simp [varsAll], by simp [varsAll]⟩
        | cons => simp [AddsAll] at h
      | cons t ts ihts =>
        intro ts' lo h
        obtain ⟨ht, hts⟩ := List.forall_mem_cons.mp ih
        cases ts' with
        | nil => simp [AddsAll] at h
        | cons t' ts' =>
          rw [AddsAll] at h
          obtain ⟨mid, h, h'⟩ := h
          rw [varsAll, varsAll]
          exact (ht h).union (ihts hts h')
    rw [vars, vars]
    exact AddsVars.union ⟨hle, hplain, hmem, hnumbered⟩ (hall ts ih hts)

/-- What occurs outside of a tree, and outside of the tree with further variables. -/
structure AddsOutside (f : β → α) (index : α → Option Nat) (lo : Nat) (V : Set β) (V' : Set α)
    (hi : Nat) : Prop where
  plain : ∀ x ∈ V, index (f x) = none
  mem_iff : ∀ y, index y = none → (y ∈ V' ↔ ∃ x ∈ V, f x = y)
  numbered : ∀ y ∈ V', ∀ n, index y = some n → n < lo ∨ hi ≤ n

theorem AddsOutside.union {lo' hi' first last : Nat} {V W : Set β} {V' W' : Set α}
    (h : AddsOutside f index lo V V' hi) (h' : AddsVars f index first W W' last) (hlo : lo ≤ lo')
    (hhi : hi' ≤ hi) (hother : last ≤ lo' ∨ hi' ≤ first) :
    AddsOutside f index lo' (V ∪ W) (V' ∪ W') hi' where
  plain x hx := hx.elim (h.plain x) (h'.plain x)
  mem_iff y hy := by
    rw [Set.mem_union, h.mem_iff y hy, h'.mem_iff y hy]
    simp only [Set.mem_union, or_and_right, exists_or]
  numbered y hy n hn := by
    rcases hy with hy | hy
    · have := h.numbered y hy n hn
      omega
    · have := h'.numbered y hy n hn
      omega

/-- What occurs outside of a tree and in it is in the node above the tree, with the further
variables when without them. -/
theorem parent_iff (hf : Function.Injective f) {V W P : Set β} {V' W' P' : Set α} {mid : Nat}
    (hV : AddsVars f index lo V V' mid) (hW : AddsOutside f index lo W W' mid)
    (hP : ∀ y, index y = none → (y ∈ P' ↔ ∃ x ∈ P, f x = y)) :
    (∀ y ∈ V', y ∈ W' → y ∈ P') ↔ ∀ x ∈ V, x ∈ W → x ∈ P := by
  constructor
  · intro h x hx hxW
    have hplain := hV.plain x hx
    have hy := h (f x) ((hV.mem_iff _ hplain).mpr ⟨x, hx, rfl⟩)
      ((hW.mem_iff _ hplain).mpr ⟨x, hxW, rfl⟩)
    obtain ⟨x', hx', heq⟩ := (hP _ hplain).mp hy
    exact hf heq ▸ hx'
  · intro h y hy hyW
    match hindex : index y with
    | some n =>
      -- a number of the tree is not one from outside
      have := hV.numbered y hy n hindex
      have := hW.numbered y hyW n hindex
      omega
    | none =>
      obtain ⟨x, hx, rfl⟩ := (hV.mem_iff y hindex).mp hy
      obtain ⟨x', hx', heq⟩ := (hW.mem_iff _ hindex).mp hyW
      rw [hf heq] at hx'
      exact (hP _ hindex).mpr ⟨x, h x hx hx', rfl⟩

theorem wellDesigned_iff_of_adds (hf : Function.Injective f) (t : VarTree β) :
    ∀ {t' : VarTree α} {lo hi : Nat} {outside : Set β} {outside' : Set α},
    Adds f index lo t t' hi → AddsOutside f index lo outside outside' hi →
    (WellDesigned outside' t' ↔ WellDesigned outside t) := by
  induction t using induct with
  | node vs ts ih =>
    intro t' lo hi outside outside' h hout
    obtain ⟨vs', ts'⟩ := t'
    rw [Adds] at h
    obtain ⟨mid, hle, hplain, hmem, hnumbered, hts⟩ := h
    have hall : ∀ (ts : List (VarTree β)), (∀ t ∈ ts,
        ∀ {t' : VarTree α} {lo hi : Nat} {outside : Set β} {outside' : Set α},
        Adds f index lo t t' hi → AddsOutside f index lo outside outside' hi →
        (WellDesigned outside' t' ↔ WellDesigned outside t)) →
        ∀ {ts' : List (VarTree α)} {lo : Nat} {outside : Set β} {outside' : Set α},
        AddsAll f index lo ts ts' hi → AddsOutside f index lo outside outside' hi →
        AddsVars f index lo (varsAll ts) (varsAll ts') hi ∧
        (ChildrenWellDesigned outside' {y | y ∈ vs'} ts' ↔
          ChildrenWellDesigned outside {x | x ∈ vs} ts) := by
      intro ts ih
      induction ts with
      | nil =>
        intro ts' lo outside outside' h hout
        cases ts' with
        | nil =>
          rw [AddsAll] at h
          subst h
          exact ⟨⟨le_rfl, by simp [varsAll], by simp [varsAll], by simp [varsAll]⟩, Iff.rfl⟩
        | cons => simp [AddsAll] at h
      | cons t ts ihts =>
        intro ts' lo outside outside' h hout
        obtain ⟨iht, ihrest⟩ := List.forall_mem_cons.mp ih
        cases ts' with
        | nil => simp [AddsAll] at h
        | cons t' ts' =>
          rw [AddsAll] at h
          obtain ⟨mid, ht, hts⟩ := h
          have hvars := addsVars_of_adds t ht
          obtain ⟨hrest, hchildren⟩ := ihts ihrest hts (hout.union hvars hvars.le le_rfl (.inl le_rfl))
          have hlater := hout.union hrest le_rfl hrest.le (.inr le_rfl)
          rw [varsAll, varsAll]
          refine ⟨hvars.union hrest, ?_⟩
          rw [ChildrenWellDesigned, ChildrenWellDesigned, hchildren, iht ht hlater]
          exact and_congr_left' (parent_iff hf hvars hlater hmem)
    rw [WellDesigned, WellDesigned]
    exact (hall ts ih hts
      (hout.union ⟨hle, hplain, hmem, hnumbered⟩ hle le_rfl (.inl le_rfl))).2

end numbered

end VarTree

end MillenniumDB
