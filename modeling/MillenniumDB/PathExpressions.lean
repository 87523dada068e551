import Mathlib.Computability.Language
import Mathlib.Order.CompletePartialOrder

/-!
# Path expressions

The classes derived from `IPath` and what their constructors compute: `nullable`, the
removal of nullability under a Kleene star (`PathDenull::denull`) and `invert`.  The
words of an expression are sequences of edge types, each with the direction in which the
edge is crossed.
-/

namespace MillenniumDB

open Computability

abbrev PathLabel := String × Bool

/-- The objects built by the subclasses of `IPath`. -/
inductive IPath
  | atom (atom : String) (inverse : Bool)
  | sequence (sequence : List IPath)
  | alternatives (alternatives : List IPath)
  | optional (path : IPath)
  | kleeneStar (path : IPath)

namespace IPath

theorem induct {motive : IPath → Prop} (atom : ∀ a inverse, motive (.atom a inverse))
    (sequence : ∀ ps, (∀ p ∈ ps, motive p) → motive (.sequence ps))
    (alternatives : ∀ ps, (∀ p ∈ ps, motive p) → motive (.alternatives ps))
    (optional : ∀ p, motive p → motive (.optional p))
    (kleeneStar : ∀ p, motive p → motive (.kleeneStar p)) (p : IPath) : motive p := by
  refine IPath.rec (motive_1 := motive) (motive_2 := fun ps => ∀ p ∈ ps, motive p)
    atom sequence alternatives optional kleeneStar ?_ ?_ p
  · simp
  · intro p ps hp hps
    simpa using ⟨hp, hps⟩

mutual

/-- `nullable()`; sequences and alternatives store it when they are constructed. -/
def nullable : IPath → Bool
  | .atom _ _ => false
  | .sequence ps => allNullable ps
  | .alternatives ps => anyNullable ps
  | .optional _ => true
  | .kleeneStar _ => true

/-- `PathSequence::get_nullable`. -/
def allNullable : List IPath → Bool
  | [] => true
  | p :: ps => p.nullable && allNullable ps

/-- `PathAlternatives::get_nullable`. -/
def anyNullable : List IPath → Bool
  | [] => false
  | p :: ps => p.nullable || anyNullable ps

end

mutual

def denull : IPath → IPath
  | .atom a inverse => .atom a inverse
  | .sequence ps => if allNullable ps then .alternatives (denullList ps) else .sequence ps
  | .alternatives ps => if anyNullable ps then .alternatives (denullList ps) else .alternatives ps
  | .optional p => p
  | .kleeneStar p => p

/-- The loop of `denull` over the members of a sequence or of alternatives. -/
def denullList : List IPath → List IPath
  | [] => []
  | p :: ps => p.denull :: denullList ps

end

mutual

/-- The object that the constructors build for an expression: `PathKleeneStar` keeps its
argument denulled. -/
def construct : IPath → IPath
  | .atom a inverse => .atom a inverse
  | .sequence ps => .sequence (constructList ps)
  | .alternatives ps => .alternatives (constructList ps)
  | .optional p => .optional p.construct
  | .kleeneStar p => .kleeneStar p.construct.denull

def constructList : List IPath → List IPath
  | [] => []
  | p :: ps => p.construct :: constructList ps

end

mutual

/-- `invert()`: the walks of the expression from their end to their start. -/
def invert : IPath → IPath
  | .atom a inverse => .atom a !inverse
  | .sequence ps => .sequence (invertList ps).reverse
  | .alternatives ps => .alternatives (invertList ps)
  | .optional p => .optional p.invert
  | .kleeneStar p => .kleeneStar p.invert.denull

def invertList : List IPath → List IPath
  | [] => []
  | p :: ps => p.invert :: invertList ps

end

mutual

def words : IPath → Language PathLabel
  | .atom a inverse => {[(a, inverse)]}
  | .sequence ps => productWords ps
  | .alternatives ps => unionWords ps
  | .optional p => 1 + p.words
  | .kleeneStar p => p.words∗

def productWords : List IPath → Language PathLabel
  | [] => 1
  | p :: ps => p.words * productWords ps

def unionWords : List IPath → Language PathLabel
  | [] => 0
  | p :: ps => p.words + unionWords ps

end

theorem words_le_unionWords {p : IPath} {ps : List IPath} (hp : p ∈ ps) :
    p.words ≤ unionWords ps := by
  induction ps with
  | nil => simp at hp
  | cons q ps ih =>
    rw [unionWords]
    rcases List.mem_cons.mp hp with rfl | hp
    · exact le_sup_left
    · exact (ih hp).trans le_sup_right

theorem unionWords_le {ps : List IPath} {L : Language PathLabel}
    (h : ∀ p ∈ ps, p.words ≤ L) : unionWords ps ≤ L := by
  induction ps with
  | nil => exact bot_le
  | cons p ps ih =>
    rw [unionWords]
    exact sup_le (h p (by simp)) (ih fun q hq => h q (by simp [hq]))

theorem allNullable_iff {ps : List IPath} : allNullable ps ↔ ∀ p ∈ ps, p.nullable := by
  induction ps with
  | nil => simp [allNullable]
  | cons p ps ih => simp [allNullable, ih]

theorem anyNullable_iff {ps : List IPath} : anyNullable ps ↔ ∃ p ∈ ps, p.nullable := by
  induction ps with
  | nil => simp [anyNullable]
  | cons p ps ih => simp [anyNullable, ih]

theorem one_le_productWords {ps : List IPath} (h : ∀ p ∈ ps, 1 ≤ p.words) :
    1 ≤ productWords ps := by
  induction ps with
  | nil => exact le_rfl
  | cons p ps ih =>
    rw [productWords]
    calc (1 : Language PathLabel) = 1 * 1 := (one_mul 1).symm
      _ ≤ p.words * productWords ps :=
        mul_le_mul' (h p (by simp)) (ih fun q hq => h q (by simp [hq]))

theorem one_le_words (p : IPath) : p.nullable → 1 ≤ p.words := by
  induction p using induct with
  | atom a inverse => simp [nullable]
  | sequence ps ih =>
    intro h
    rw [nullable, allNullable_iff] at h
    exact one_le_productWords fun p hp => ih p hp (h p hp)
  | alternatives ps ih =>
    intro h
    rw [nullable, anyNullable_iff] at h
    obtain ⟨p, hp, hn⟩ := h
    exact (ih p hp hn).trans (words_le_unionWords hp)
  | optional p => exact fun _ => le_sup_left
  | kleeneStar p => exact fun _ => one_le_kstar

theorem nullable_of_nil_mem (p : IPath) : [] ∈ p.words → p.nullable := by
  induction p using induct with
  | atom a inverse =>
    intro h
    have hnil : ([] : List PathLabel) = [(a, inverse)] := h
    simp at hnil
  | sequence ps ih =>
    intro h
    rw [nullable, allNullable_iff]
    rw [words] at h
    induction ps with
    | nil => simp
    | cons p ps ihs =>
      rw [productWords, Language.mem_mul] at h
      obtain ⟨u, hu, v, hv, huv⟩ := h
      obtain ⟨rfl, rfl⟩ := List.append_eq_nil_iff.mp huv
      intro q hq
      rcases List.mem_cons.mp hq with rfl | hq
      · exact ih q (by simp) hu
      · exact ihs (fun q hq => ih q (by simp [hq])) hv q hq
  | alternatives ps ih =>
    intro h
    rw [nullable, anyNullable_iff]
    rw [words] at h
    induction ps with
    | nil => exact absurd h (Language.notMem_zero [])
    | cons p ps ihs =>
      rw [unionWords, Language.mem_add] at h
      rcases h with h | h
      · exact ⟨p, by simp, ih p (by simp) h⟩
      · obtain ⟨q, hq, hn⟩ := ihs (fun q hq => ih q (by simp [hq])) h
        exact ⟨q, by simp [hq], hn⟩
  | optional p => exact fun _ => rfl
  | kleeneStar p => exact fun _ => rfl

theorem productWords_le_kstar {ps : List IPath} {L : Language PathLabel}
    (h : ∀ p ∈ ps, p.words ≤ L∗) : productWords ps ≤ L∗ := by
  induction ps with
  | nil => exact one_le_kstar
  | cons p ps ih =>
    rw [productWords]
    calc p.words * productWords ps ≤ L∗ * L∗ :=
          mul_le_mul' (h p (by simp)) (ih fun q hq => h q (by simp [hq]))
      _ = L∗ := kstar_mul_kstar L

theorem words_le_productWords {ps : List IPath} (h : ∀ p ∈ ps, 1 ≤ p.words) {p : IPath}
    (hp : p ∈ ps) : p.words ≤ productWords ps := by
  induction ps with
  | nil => simp at hp
  | cons q ps ih =>
    rw [productWords]
    have hps : ∀ p ∈ ps, 1 ≤ p.words := fun p hp => h p (by simp [hp])
    rcases List.mem_cons.mp hp with rfl | hp
    · calc p.words = p.words * 1 := (mul_one _).symm
        _ ≤ p.words * productWords ps := mul_le_mul' le_rfl (one_le_productWords hps)
    · calc p.words = 1 * p.words := (one_mul _).symm
        _ ≤ q.words * productWords ps := mul_le_mul' (h q (by simp)) (ih hps hp)

@[simp] theorem denullList_eq_map (ps : List IPath) : denullList ps = ps.map denull := by
  induction ps with
  | nil => rfl
  | cons p ps ih => rw [denullList, ih, List.map_cons]

@[simp] theorem constructList_eq_map (ps : List IPath) : constructList ps = ps.map construct := by
  induction ps with
  | nil => rfl
  | cons p ps ih => rw [constructList, ih, List.map_cons]

@[simp] theorem invertList_eq_map (ps : List IPath) : invertList ps = ps.map invert := by
  induction ps with
  | nil => rfl
  | cons p ps ih => rw [invertList, ih, List.map_cons]

theorem kstar_le_of_le_kstar {K : Type*} [KleeneAlgebra K] {a b : K} (h : a ≤ b∗) :
    a∗ ≤ b∗ := by
  calc a∗ ≤ b∗∗ := kstar_mono h
    _ = b∗ := kstar_idem b

theorem kstar_unionWords_map_denull {ps : List IPath}
    (ih : ∀ p ∈ ps, p.denull.words∗ = p.words∗) :
    (unionWords (ps.map denull))∗ = (unionWords ps)∗ := by
  apply le_antisymm
  · apply kstar_le_of_le_kstar
    apply unionWords_le
    intro q hq
    obtain ⟨p, hp, rfl⟩ := List.mem_map.mp hq
    calc p.denull.words ≤ p.denull.words∗ := le_kstar
      _ = p.words∗ := ih p hp
      _ ≤ (unionWords ps)∗ := kstar_mono (words_le_unionWords hp)
  · apply kstar_le_of_le_kstar
    apply unionWords_le
    intro p hp
    calc p.words ≤ p.words∗ := le_kstar
      _ = p.denull.words∗ := (ih p hp).symm
      _ ≤ (unionWords (ps.map denull))∗ :=
        kstar_mono (words_le_unionWords (List.mem_map_of_mem hp))

/-- `PathDenull` keeps the language of the star over an expression. -/
theorem kstar_words_denull (p : IPath) : p.denull.words∗ = p.words∗ := by
  induction p using induct with
  | atom a inverse => rfl
  | sequence ps ih =>
    rw [denull]
    split_ifs with h
    · have hone : ∀ p ∈ ps, 1 ≤ p.words := fun p hp =>
        one_le_words p (allNullable_iff.mp h p hp)
      rw [denullList_eq_map, words, words, kstar_unionWords_map_denull ih]
      apply le_antisymm
      · exact kstar_mono (unionWords_le fun p hp => words_le_productWords hone hp)
      · apply kstar_le_of_le_kstar
        exact productWords_le_kstar fun p hp => (words_le_unionWords hp).trans le_kstar
    · rfl
  | alternatives ps ih =>
    rw [denull]
    split_ifs with h
    · rw [denullList_eq_map, words, words, kstar_unionWords_map_denull ih]
    · rfl
  | optional p ih =>
    rw [denull, words]
    apply le_antisymm
    · exact kstar_mono le_sup_right
    · exact kstar_le_of_le_kstar (sup_le one_le_kstar le_kstar)
  | kleeneStar p ih => rw [denull, words, kstar_idem]

mutual

/-- No optional over a nullable expression is met on the way that `denull` goes down, which is
through stars and through the members of nullable sequences and alternatives. -/
def Denulls : IPath → Prop
  | .atom _ _ => True
  | .sequence ps => allNullable ps → AllDenull ps
  | .alternatives ps => anyNullable ps → AllDenull ps
  | .optional p => ¬ p.nullable
  | .kleeneStar p => p.Denulls

def AllDenull : List IPath → Prop
  | [] => True
  | p :: ps => p.Denulls ∧ AllDenull ps

end

theorem allDenull_iff {ps : List IPath} : AllDenull ps ↔ ∀ p ∈ ps, p.Denulls := by
  induction ps with
  | nil => simp [AllDenull]
  | cons p ps ih => simp [AllDenull, ih]

theorem allNullable_map_construct {ps : List IPath}
    (ih : ∀ p ∈ ps, p.construct.nullable = p.nullable) :
    allNullable (ps.map construct) = allNullable ps := by
  apply Bool.eq_iff_iff.mpr
  rw [allNullable_iff, allNullable_iff, List.forall_mem_map]
  exact forall₂_congr fun p hp => by rw [ih p hp]

theorem anyNullable_map_construct {ps : List IPath}
    (ih : ∀ p ∈ ps, p.construct.nullable = p.nullable) :
    anyNullable (ps.map construct) = anyNullable ps := by
  apply Bool.eq_iff_iff.mpr
  simp only [anyNullable_iff, List.mem_map, exists_exists_and_eq_and]
  exact exists_congr fun p => and_congr_right fun hp => by rw [ih p hp]

@[simp] theorem nullable_construct (p : IPath) : p.construct.nullable = p.nullable := by
  induction p using induct with
  | atom a inverse => rfl
  | sequence ps ih =>
    rw [construct, constructList_eq_map, nullable, nullable, allNullable_map_construct ih]
  | alternatives ps ih =>
    rw [construct, constructList_eq_map, nullable, nullable, anyNullable_map_construct ih]
  | optional p => rfl
  | kleeneStar p => rfl

theorem anyNullable_denulled_iff {ps : List IPath}
    (ih : ∀ p ∈ ps, p.construct.denull.nullable = false ↔ p.Denulls) :
    anyNullable ((ps.map construct).map denull) = false ↔ AllDenull ps := by
  rw [← Bool.not_eq_true, anyNullable_iff, allDenull_iff]
  simp only [List.map_map, List.mem_map, exists_exists_and_eq_and, not_exists, not_and,
    Function.comp_apply, Bool.not_eq_true]
  exact forall₂_congr ih

/-- The result is not nullable exactly when no nullable operand of an optional is met. -/
theorem nullable_denull_construct (p : IPath) : p.construct.denull.nullable = false ↔ p.Denulls := by
  induction p using induct with
  | atom a inverse => exact iff_of_true rfl trivial
  | sequence ps ih =>
    have hmap := allNullable_map_construct fun p (_ : p ∈ ps) => nullable_construct p
    rw [construct, constructList_eq_map, denull, Denulls, hmap]
    split_ifs with h
    · rw [nullable, denullList_eq_map, anyNullable_denulled_iff ih]
      exact (imp_iff_right h).symm
    · rw [nullable, hmap]
      exact iff_of_true (by simpa using h) fun h' => absurd h' h
  | alternatives ps ih =>
    have hmap := anyNullable_map_construct fun p (_ : p ∈ ps) => nullable_construct p
    rw [construct, constructList_eq_map, denull, Denulls, hmap]
    split_ifs with h
    · rw [nullable, denullList_eq_map, anyNullable_denulled_iff ih]
      exact (imp_iff_right h).symm
    · rw [nullable, hmap]
      exact iff_of_true (by simpa using h) fun h' => absurd h' h
  | optional p => rw [construct, denull, Denulls, nullable_construct, Bool.not_eq_true]
  | kleeneStar p ih => exact ih

/-- What is expected of the body that a star stores: the same language under the star, and no
empty word. -/
def DenullsRight (p : IPath) : Prop :=
  p.denull.words∗ = p.words∗ ∧ p.denull.nullable = false

/-- The stored body is right exactly when no optional over a nullable expression is met. -/
theorem denullsRight_construct_iff (p : IPath) : p.construct.DenullsRight ↔ p.Denulls :=
  (and_iff_right (kstar_words_denull p.construct)).trans (nullable_denull_construct p)

/-- Under the star of `((:a*)?)*` the inner star is left. -/
theorem not_denullsRight_optionalOfStar :
    ¬ (IPath.optional (.kleeneStar (.atom "a" false))).construct.DenullsRight := by
  intro h
  exact absurd h.2 (by decide)

theorem productWords_map {ps : List IPath} {f : IPath → IPath}
    (h : ∀ p ∈ ps, (f p).words = p.words) : productWords (ps.map f) = productWords ps := by
  induction ps with
  | nil => rfl
  | cons p ps ih =>
    rw [List.map_cons, productWords, productWords, h p (by simp),
      ih fun q hq => h q (by simp [hq])]

theorem unionWords_map {ps : List IPath} {f : IPath → IPath}
    (h : ∀ p ∈ ps, (f p).words = p.words) : unionWords (ps.map f) = unionWords ps := by
  induction ps with
  | nil => rfl
  | cons p ps ih =>
    rw [List.map_cons, unionWords, unionWords, h p (by simp),
      ih fun q hq => h q (by simp [hq])]

theorem words_construct (p : IPath) : p.construct.words = p.words := by
  induction p using induct with
  | atom a inverse => rfl
  | sequence ps ih => rw [construct, constructList_eq_map, words, words, productWords_map ih]
  | alternatives ps ih => rw [construct, constructList_eq_map, words, words, unionWords_map ih]
  | optional p ih => rw [construct, words, words, ih]
  | kleeneStar p ih => rw [construct, words, words, kstar_words_denull, ih]

def flipLabel (l : PathLabel) : PathLabel := (l.1, !l.2)

def invertWords (L : Language PathLabel) : Language PathLabel := (L.map flipLabel).reverse

theorem mem_invertWords {L : Language PathLabel} {w : List PathLabel} :
    w ∈ invertWords L ↔ (w.map flipLabel).reverse ∈ L := by
  have hflip : ∀ u : List PathLabel, (u.map flipLabel).map flipLabel = u := by
    intro u
    simp [flipLabel, Function.comp_def]
  show w.reverse ∈ L.map flipLabel ↔ _
  constructor
  · intro ⟨u, hu, heq⟩
    rw [← List.reverse_reverse w, ← heq, List.map_reverse, List.reverse_reverse, hflip]
    exact hu
  · intro h
    refine ⟨_, h, ?_⟩
    show List.map flipLabel _ = _
    rw [List.map_reverse, hflip]

theorem invertWords_mul (L M : Language PathLabel) :
    invertWords (L * M) = invertWords M * invertWords L := by
  rw [invertWords, map_mul, Language.reverse_mul, invertWords, invertWords]

theorem productWords_append (ps qs : List IPath) :
    productWords (ps ++ qs) = productWords ps * productWords qs := by
  induction ps with
  | nil => rw [List.nil_append, productWords, one_mul]
  | cons p ps ih => rw [List.cons_append, productWords, productWords, ih, mul_assoc]

theorem productWords_reverse_invert {ps : List IPath}
    (ih : ∀ p ∈ ps, p.invert.words = invertWords p.words) :
    productWords (ps.map invert).reverse = invertWords (productWords ps) := by
  induction ps with
  | nil =>
    rw [List.map_nil, List.reverse_nil, productWords, invertWords, map_one, Language.reverse_one]
  | cons p ps ihs =>
    rw [List.map_cons, List.reverse_cons, productWords_append, productWords, productWords,
      productWords, mul_one, invertWords_mul, ih p (by simp),
      ihs fun q hq => ih q (by simp [hq])]

theorem unionWords_map_invert {ps : List IPath}
    (ih : ∀ p ∈ ps, p.invert.words = invertWords p.words) :
    unionWords (ps.map invert) = invertWords (unionWords ps) := by
  induction ps with
  | nil => rw [List.map_nil, unionWords, invertWords, map_zero, Language.reverse_zero]
  | cons p ps ihs =>
    rw [List.map_cons, unionWords, unionWords, ih p (by simp),
      ihs fun q hq => ih q (by simp [hq]), invertWords, invertWords, invertWords, map_add,
      Language.reverse_add]

/-- `invert()` denotes the inverted walks. -/
theorem words_invert (p : IPath) : p.invert.words = invertWords p.words := by
  induction p using induct with
  | atom a inverse =>
    have himage : Language.map flipLabel {[(a, inverse)]} = {[(a, !inverse)]} :=
      Set.image_singleton
    have hreverse : List.reverse '' ({[(a, !inverse)]} : Set (List PathLabel)) =
      {[(a, !inverse)]} := Set.image_singleton
    rw [invert, words, words, invertWords, himage, Language.reverse_eq_image]
    exact hreverse.symm
  | sequence ps ih => rw [invert, invertList_eq_map, words, words, productWords_reverse_invert ih]
  | alternatives ps ih => rw [invert, invertList_eq_map, words, words, unionWords_map_invert ih]
  | optional p ih =>
    rw [invert, words, words, ih, invertWords, invertWords, map_add, map_one,
      Language.reverse_add, Language.reverse_one]
  | kleeneStar p ih =>
    rw [invert, words, words, kstar_words_denull, ih, invertWords, invertWords,
      Language.map_kstar, Language.reverse_kstar]

/-- The start state of the automaton built for the expression has incoming transitions: the
expression begins with a Kleene star. -/
def startEntered : IPath → Bool
  | .atom _ _ => false
  | .sequence [] => false
  | .sequence (p :: _) => p.startEntered
  | .alternatives _ => false
  | .optional p => p.startEntered
  | .kleeneStar _ => true

mutual

def stateCount : IPath → Nat
  | .atom _ _ => 2
  | .sequence ps => stateCounts ps
  | .alternatives ps => 1 + stateCounts ps
  | .optional p => p.stateCount
  | .kleeneStar p => if p.stateCount = 2 then 1 else p.stateCount

def stateCounts : List IPath → Nat
  | [] => 0
  | p :: ps => p.stateCount + stateCounts ps

end

/-- The expression is one atom, up to optionals and sequences of one member. -/
def isSingleEdge : IPath → Bool
  | .atom _ _ => true
  | .sequence [p] => p.isSingleEdge
  | .optional p => p.isSingleEdge
  | _ => false

mutual

/-- Every part of the expression is one that the automaton construction gets right: an
optional or a star is not put over an expression that begins with a star, unless that is
nullable, and a star whose automaton has two states is over a single edge. -/
def StartsFresh : IPath → Prop
  | .atom a _ => a ≠ ""
  | .sequence ps => ps ≠ [] ∧ AllStartFresh ps
  | .alternatives ps => ps ≠ [] ∧ AllStartFresh ps
  | .optional p => p.StartsFresh ∧ (p.startEntered → p.nullable)
  | .kleeneStar p => p.StartsFresh ∧ (p.startEntered → p.nullable) ∧
      (p.stateCount = 2 → p.isSingleEdge)

def AllStartFresh : List IPath → Prop
  | [] => True
  | p :: ps => p.StartsFresh ∧ AllStartFresh ps

end

theorem allStartFresh_iff {ps : List IPath} : AllStartFresh ps ↔ ∀ p ∈ ps, p.StartsFresh := by
  induction ps with
  | nil => simp [AllStartFresh]
  | cons p ps ih => simp [AllStartFresh, ih]

end IPath
end MillenniumDB
