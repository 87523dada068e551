import MillenniumDB.Lib.BoundedPowers
import MillenniumDB.PatternCheck

/-!
# Paths of patterns

The words that a path pattern denotes as it is written, and the expression that the visitor
builds for it.  The bounds of a repetition are read with `stoul` into an `unsigned`, and so the
copies are those that are written only for bounds that fit and that are in order.
-/

namespace MillenniumDB

open Computability

namespace IPath

theorem invertWords_invertWords (L : Language PathLabel) : invertWords (invertWords L) = L := by
  ext w
  rw [mem_invertWords, mem_invertWords, List.map_reverse, List.reverse_reverse, List.map_map]
  have hflip : flipLabel ∘ flipLabel = id := by
    funext l
    simp [flipLabel]
  rw [hflip, List.map_id]

theorem invertWords_one : invertWords 1 = 1 := by
  rw [invertWords, map_one, Language.reverse_one]

theorem invertWords_add (L M : Language PathLabel) :
    invertWords (L + M) = invertWords L + invertWords M := by
  rw [invertWords, map_add, Language.reverse_add, invertWords, invertWords]

theorem invertWords_kstar (L : Language PathLabel) : invertWords L∗ = (invertWords L)∗ := by
  rw [invertWords, Language.map_kstar, Language.reverse_kstar, invertWords]

theorem invertWords_boundedPowers (L : Language PathLabel) (min max : Nat) :
    invertWords (boundedPowers L min max) = boundedPowers (invertWords L) min max := by
  rw [invertWords, map_boundedPowers, reverse_boundedPowers, invertWords]

/-- The words of a path under as many `^` as there are. -/
def directed (inverse : Bool) (L : Language PathLabel) : Language PathLabel :=
  if inverse then invertWords L else L

theorem directed_xor (inv inverse : Bool) (L : Language PathLabel) :
    directed (inv ^^ inverse) L = directed inverse (directed inv L) := by
  cases inv <;> cases inverse
  · rfl
  · rfl
  · rfl
  · exact (invertWords_invertWords L).symm

theorem directed_add (inverse : Bool) (L M : Language PathLabel) :
    directed inverse (L + M) = directed inverse L + directed inverse M := by
  cases inverse
  · rfl
  · exact invertWords_add L M

mutual

/-- Every sequence and every list of alternatives has the first member, which is read to build
the automaton and the text of the expression. -/
def HasMembers : IPath → Prop
  | .atom _ _ => True
  | .sequence ps => ps ≠ [] ∧ AllHaveMembers ps
  | .alternatives ps => ps ≠ [] ∧ AllHaveMembers ps
  | .optional p => p.HasMembers
  | .kleeneStar p => p.HasMembers

def AllHaveMembers : List IPath → Prop
  | [] => True
  | p :: ps => p.HasMembers ∧ AllHaveMembers ps

end

theorem allHaveMembers_iff {ps : List IPath} : AllHaveMembers ps ↔ ∀ p ∈ ps, p.HasMembers := by
  induction ps with
  | nil => simp [AllHaveMembers]
  | cons p ps ih => simp [AllHaveMembers, ih]

theorem hasMembers_sequence {ps : List IPath} :
    (sequence ps).HasMembers ↔ ps ≠ [] ∧ ∀ p ∈ ps, p.HasMembers := by
  rw [HasMembers, allHaveMembers_iff]

theorem hasMembers_alternatives {ps : List IPath} :
    (alternatives ps).HasMembers ↔ ps ≠ [] ∧ ∀ p ∈ ps, p.HasMembers := by
  rw [HasMembers, allHaveMembers_iff]

theorem forall_hasMembers_map {ps : List IPath} {f : IPath → IPath}
    (ih : ∀ p ∈ ps, p.HasMembers → (f p).HasMembers) (h : ps ≠ [] ∧ ∀ p ∈ ps, p.HasMembers) :
    ps.map f ≠ [] ∧ ∀ p ∈ ps.map f, p.HasMembers := by
  refine ⟨by simpa using h.1, ?_⟩
  rw [List.forall_mem_map]
  exact fun p hp => ih p hp (h.2 p hp)

theorem HasMembers.denull {p : IPath} : p.HasMembers → p.denull.HasMembers := by
  induction p using IPath.induct with
  | atom a inverse => exact id
  | sequence ps ih =>
    intro h
    rw [IPath.denull]
    split_ifs
    · rw [denullList_eq_map, hasMembers_alternatives]
      exact forall_hasMembers_map ih (hasMembers_sequence.mp h)
    · exact h
  | alternatives ps ih =>
    intro h
    rw [IPath.denull]
    split_ifs
    · rw [denullList_eq_map, hasMembers_alternatives]
      exact forall_hasMembers_map ih (hasMembers_alternatives.mp h)
    · exact h
  | optional p => exact id
  | kleeneStar p => exact id

theorem HasMembers.invert {p : IPath} : p.HasMembers → p.invert.HasMembers := by
  induction p using IPath.induct with
  | atom a inverse => exact id
  | sequence ps ih =>
    intro h
    obtain ⟨hne, hall⟩ := forall_hasMembers_map ih (hasMembers_sequence.mp h)
    rw [IPath.invert, invertList_eq_map, hasMembers_sequence]
    exact ⟨by simpa using hne, fun p hp => hall p (List.mem_reverse.mp hp)⟩
  | alternatives ps ih =>
    intro h
    rw [IPath.invert, invertList_eq_map, hasMembers_alternatives]
    exact forall_hasMembers_map ih (hasMembers_alternatives.mp h)
  | optional p ih => exact ih
  | kleeneStar p ih => exact fun h => (ih h).denull

theorem productWords_replicate (p : IPath) (n : Nat) :
    productWords (List.replicate n p) = p.words ^ n := by
  induction n with
  | zero => rw [List.replicate_zero, productWords, pow_zero]
  | succ n ih => rw [List.replicate_succ, productWords, ih, pow_succ']

end IPath

namespace Parser

open IPath (invertWords directed)

def suffixLanguage (L : Language PathLabel) : Option PathSuffix → Language PathLabel
  | none => L
  | some .star => L∗
  | some .plus => L * L∗
  | some .optional => 1 + L
  | some (.range min max) => boundedPowers L min max

mutual

def PathAtom.language : PathAtom → Language PathLabel
  | .simple inverse type suffix => directed inverse (suffixLanguage {[(type, false)]} suffix)
  | .alternatives inverse alternatives suffix =>
    directed inverse (suffixLanguage (languageOfSequences alternatives) suffix)

def languageOfSequences : List (List PathAtom) → Language PathLabel
  | [] => 0
  | atoms :: rest => languageOfAtoms atoms + languageOfSequences rest

def languageOfAtoms : List PathAtom → Language PathLabel
  | [] => 1
  | atom :: atoms => atom.language * languageOfAtoms atoms

end

def suffixRanges : Option PathSuffix → List (Nat × Nat)
  | some (.range min max) => [(min, max)]
  | _ => []

mutual

def PathAtom.ranges : PathAtom → List (Nat × Nat)
  | .simple _ _ suffix => suffixRanges suffix
  | .alternatives _ alternatives suffix => rangesOfSequences alternatives ++ suffixRanges suffix

def rangesOfSequences : List (List PathAtom) → List (Nat × Nat)
  | [] => []
  | atoms :: rest => rangesOfAtoms atoms ++ rangesOfSequences rest

def rangesOfAtoms : List PathAtom → List (Nat × Nat)
  | [] => []
  | atom :: atoms => atom.ranges ++ rangesOfAtoms atoms

end

mutual

/-- The grammar has no empty alternatives and no empty sequences. -/
def PathAtom.Parsed : PathAtom → Prop
  | .simple _ _ _ => True
  | .alternatives _ alternatives _ => alternatives ≠ [] ∧ SequencesParsed alternatives

def SequencesParsed : List (List PathAtom) → Prop
  | [] => True
  | atoms :: rest => (atoms ≠ [] ∧ AtomsParsed atoms) ∧ SequencesParsed rest

def AtomsParsed : List PathAtom → Prop
  | [] => True
  | atom :: atoms => atom.Parsed ∧ AtomsParsed atoms

end

theorem atomsParsed_iff {atoms : List PathAtom} :
    AtomsParsed atoms ↔ ∀ atom ∈ atoms, atom.Parsed := by
  induction atoms with
  | nil => simp [AtomsParsed]
  | cons atom atoms ih => simp [AtomsParsed, ih]

theorem sequencesParsed_iff {alternatives : List (List PathAtom)} :
    SequencesParsed alternatives ↔ ∀ atoms ∈ alternatives, atoms ≠ [] ∧ AtomsParsed atoms := by
  induction alternatives with
  | nil => simp [SequencesParsed]
  | cons atoms rest ih => simp [SequencesParsed, ih]

theorem mem_rangesOfAtoms {r : Nat × Nat} {atom : PathAtom} {atoms : List PathAtom}
    (hr : r ∈ atom.ranges) (hatom : atom ∈ atoms) : r ∈ rangesOfAtoms atoms := by
  induction atoms with
  | nil => simp at hatom
  | cons a atoms ih =>
    rw [rangesOfAtoms, List.mem_append]
    rcases List.mem_cons.mp hatom with rfl | hatom
    · exact Or.inl hr
    · exact Or.inr (ih hatom)

theorem mem_rangesOfSequences {r : Nat × Nat} {atoms : List PathAtom}
    {alternatives : List (List PathAtom)} (hr : r ∈ rangesOfAtoms atoms)
    (hatoms : atoms ∈ alternatives) : r ∈ rangesOfSequences alternatives := by
  induction alternatives with
  | nil => simp at hatoms
  | cons s rest ih =>
    rw [rangesOfSequences, List.mem_append]
    rcases List.mem_cons.mp hatoms with rfl | hatoms
    · exact Or.inl hr
    · exact Or.inr (ih hatoms)

def Countable (r : Nat × Nat) : Prop :=
  r.1 ≤ r.2 ∧ 0 < r.2 ∧ r.2 < 2 ^ 32

section paths

variable {R : Type}

theorem invertWords_suffixLanguage (L : Language PathLabel) (suffix : Option PathSuffix) :
    invertWords (suffixLanguage L suffix) = suffixLanguage (invertWords L) suffix := by
  match suffix with
  | none => rfl
  | some .star => exact IPath.invertWords_kstar L
  | some .plus =>
    rw [suffixLanguage, IPath.invertWords_mul, IPath.invertWords_kstar, Language.mul_self_kstar_comm]
    rfl
  | some .optional =>
    rw [suffixLanguage, IPath.invertWords_add, IPath.invertWords_one]
    rfl
  | some (.range min max) => exact IPath.invertWords_boundedPowers L min max

theorem directed_suffixLanguage (inverse : Bool) (L : Language PathLabel)
    (suffix : Option PathSuffix) :
    directed inverse (suffixLanguage L suffix) = suffixLanguage (directed inverse L) suffix := by
  cases inverse
  · rfl
  · exact invertWords_suffixLanguage L suffix

/-- The copies that are built: the bounds are those of an `unsigned`. -/
theorem visitSuffix_range {p : IPath} {min max : Nat} (hmin : min < 2 ^ 64) (hmax : max < 2 ^ 64) :
    (visitSuffix p (some (.range min max)) : Except (QueryException R) IPath) =
      .ok (.sequence (List.replicate (min % 2 ^ 32) p ++
        List.replicate (max % 2 ^ 32 - min % 2 ^ 32) (.optional p))) := by
  rw [visitSuffix, stoul, if_pos hmin, stoul, if_pos hmax]
  rfl

theorem words_copies (p : IPath) (min n : Nat) :
    (IPath.sequence (List.replicate min p ++ List.replicate n (.optional p))).words =
      p.words ^ min * (1 + p.words) ^ n := by
  rw [IPath.words, IPath.productWords_append, IPath.productWords_replicate,
    IPath.productWords_replicate, IPath.words]

variable (R) in
/-- What is expected of a repetition of any path: a sequence that has a member and denotes the
powers that are written. -/
def RepeatsRight (r : Nat × Nat) : Prop :=
  ∀ p : IPath, ∃ ps,
    (visitSuffix p (some (.range r.1 r.2)) : Except (QueryException R) IPath) = .ok (.sequence ps) ∧
      ps ≠ [] ∧ (IPath.sequence ps).words = boundedPowers p.words r.1 r.2

theorem visitSuffix_countable (p : IPath) {r : Nat × Nat} (h : Countable r) :
    (visitSuffix p (some (.range r.1 r.2)) : Except (QueryException R) IPath) =
      .ok (.sequence (List.replicate r.1 p ++ List.replicate (r.2 - r.1) (.optional p))) := by
  obtain ⟨hle, _, hmax⟩ := h
  rw [visitSuffix_range (by omega) (by omega), Nat.mod_eq_of_lt hmax, Nat.mod_eq_of_lt (by omega)]

theorem copies_ne_nil (p : IPath) {r : Nat × Nat} (h : Countable r) :
    List.replicate r.1 p ++ List.replicate (r.2 - r.1) (.optional p) ≠ [] := by
  obtain ⟨hle, hpos, _⟩ := h
  intro hnil
  have hlength := congrArg List.length hnil
  simp only [List.length_append, List.length_replicate, List.length_nil] at hlength
  omega

theorem repeatsRight_of_countable {r : Nat × Nat} (h : Countable r) : RepeatsRight R r := by
  intro p
  refine ⟨_, visitSuffix_countable p h, copies_ne_nil p h, ?_⟩
  rw [words_copies, pow_mul_one_add_pow h.1]

theorem countable_of_repeatsRight {r : Nat × Nat} (h : RepeatsRight R r) : Countable r := by
  obtain ⟨min, max⟩ := r
  obtain ⟨ps, hvisit, hne, hwords⟩ := h (.atom "" false)
  have hbounds := (visitSuffix_ok (some (.range min max))).mp ⟨_, hvisit⟩
  have hmin : min < 2 ^ 64 := hbounds min (by simp [suffixBounds])
  have hmax : max < 2 ^ 64 := hbounds max (by simp [suffixBounds])
  rw [visitSuffix_range hmin hmax] at hvisit
  simp only [Except.ok.injEq, IPath.sequence.injEq] at hvisit
  subst hvisit
  rw [words_copies] at hwords
  -- the fewest copies that are built are written ...
  have hfewest : List.replicate (min % 2 ^ 32) ("", false) ∈
      boundedPowers (IPath.atom "" false).words min max := by
    rw [← hwords, ← List.append_nil (List.replicate _ _)]
    exact Language.append_mem_mul replicate_mem_pow (mem_one_add_pow.mpr ⟨0, by omega, by simp⟩)
  obtain ⟨k, hk, hk', hmem⟩ := hfewest
  have hlength := length_of_mem_pow hmem
  rw [List.length_replicate] at hlength
  -- ... and the most copies that are written are built
  have hmost : List.replicate max ("", false) ∈ (IPath.atom "" false).words ^ (min % 2 ^ 32) *
      (1 + (IPath.atom "" false).words) ^ (max % 2 ^ 32 - min % 2 ^ 32) := by
    rw [hwords]
    exact ⟨max, by omega, le_rfl, replicate_mem_pow⟩
  obtain ⟨u, hu, v, hv, huv⟩ := Language.mem_mul.mp hmost
  obtain ⟨j, hj, hv⟩ := mem_one_add_pow.mp hv
  have hsum := congrArg List.length huv
  rw [List.length_append, length_of_mem_pow hu, length_of_mem_pow hv, List.length_replicate] at hsum
  have hpos : 0 < max := by
    apply Nat.pos_of_ne_zero
    rintro rfl
    obtain rfl : min = 0 := by omega
    exact hne rfl
  exact ⟨by dsimp only; omega, hpos, by dsimp only; omega⟩

theorem visitSuffix_right {p : IPath} (hp : p.HasMembers) (suffix : Option PathSuffix)
    (h : ∀ r ∈ suffixRanges suffix, Countable r) :
    ∃ q, (visitSuffix p suffix : Except (QueryException R) IPath) = .ok q ∧
      q.words = suffixLanguage p.words suffix ∧ q.HasMembers := by
  match suffix with
  | none => exact ⟨p, rfl, rfl, hp⟩
  | some .star => exact ⟨_, rfl, IPath.kstar_words_denull p, hp.denull⟩
  | some .plus =>
    refine ⟨_, rfl, ?_, ?_⟩
    · rw [IPath.words, IPath.productWords, IPath.productWords, IPath.productWords, mul_one,
        IPath.words, IPath.kstar_words_denull]
      rfl
    · rw [IPath.hasMembers_sequence]
      simpa using ⟨hp, hp.denull⟩
  | some .optional =>
    refine ⟨_, rfl, ?_⟩
    split_ifs with hnullable
    · exact ⟨(add_eq_right_iff_le.mpr (IPath.one_le_words p hnullable)).symm, hp⟩
    · exact ⟨rfl, hp⟩
  | some (.range min max) =>
    have hr : Countable (min, max) := h (min, max) (by simp [suffixRanges])
    refine ⟨_, visitSuffix_countable p hr, ?_, ?_⟩
    · rw [words_copies, pow_mul_one_add_pow hr.1]
      rfl
    · rw [IPath.hasMembers_sequence]
      refine ⟨copies_ne_nil p hr, fun q hq => ?_⟩
      rcases List.mem_append.mp hq with hq | hq
      · rw [List.eq_of_mem_replicate hq]
        exact hp
      · rw [List.eq_of_mem_replicate hq]
        exact hp

theorem single_right {build : List IPath → IPath} {ps : List IPath} {L : Language PathLabel}
    (hne : ps ≠ []) (hall : ∀ p ∈ ps, p.HasMembers)
    (hwords : ∀ p, ps = [p] → p.words = L) (hbuild : (build ps).words = L)
    (hmembers : (build ps).HasMembers) :
    (single build ps).words = L ∧ (single build ps).HasMembers := by
  match ps with
  | [] => exact absurd rfl hne
  | [p] => exact ⟨hwords p rfl, hall p (by simp)⟩
  | _ :: _ :: _ => exact ⟨hbuild, hmembers⟩

theorem single_sequence_right {ps : List IPath} (hne : ps ≠ []) (hall : ∀ p ∈ ps, p.HasMembers) :
    (single .sequence ps).words = IPath.productWords ps ∧ (single .sequence ps).HasMembers := by
  apply single_right hne hall
  · rintro p rfl
    rw [IPath.productWords, IPath.productWords, mul_one]
  · rw [IPath.words]
  · exact IPath.hasMembers_sequence.mpr ⟨hne, hall⟩

theorem single_alternatives_right {ps : List IPath} (hne : ps ≠ [])
    (hall : ∀ p ∈ ps, p.HasMembers) :
    (single .alternatives ps).words = IPath.unionWords ps ∧
      (single .alternatives ps).HasMembers := by
  apply single_right hne hall
  · rintro p rfl
    rw [IPath.unionWords, IPath.unionWords, add_zero]
  · rw [IPath.words]
  · exact IPath.hasMembers_alternatives.mpr ⟨hne, hall⟩

/-- The expression of an atom under `inverse` is built, with a first member wherever one is read,
and denotes the words that are written. -/
def AtomRight (R : Type) (atom : PathAtom) : Prop :=
  ∀ inverse : Bool, ∃ p, (visitPathAtom inverse atom : Except (QueryException R) IPath) = .ok p ∧
    p.words = directed inverse atom.language ∧ p.HasMembers

theorem visitPathAtoms_right {atoms : List PathAtom} (h : ∀ atom ∈ atoms, AtomRight R atom)
    (inverse : Bool) :
    ∃ ps, (visitPathAtoms inverse atoms : Except (QueryException R) _) = .ok ps ∧
      ps.length = atoms.length ∧ (∀ p ∈ ps, p.HasMembers) ∧
      IPath.productWords (if inverse then ps.reverse else ps) =
        directed inverse (languageOfAtoms atoms) := by
  induction atoms with
  | nil =>
    refine ⟨[], rfl, rfl, by simp, ?_⟩
    cases inverse
    · rfl
    · exact IPath.invertWords_one.symm
  | cons atom atoms ih =>
    obtain ⟨hatom, hatoms⟩ := List.forall_mem_cons.mp h
    obtain ⟨p, hp, hwords, hmembers⟩ := hatom inverse
    obtain ⟨ps, hps, hlength, hall, hproduct⟩ := ih hatoms
    refine ⟨p :: ps, ?_, by simp [hlength], List.forall_mem_cons.mpr ⟨hmembers, hall⟩, ?_⟩
    · rw [visitPathAtoms, hp, hps]
      rfl
    · cases inverse
      · simp only [Bool.false_eq_true, if_false] at hproduct ⊢
        rw [IPath.productWords, hproduct, hwords]
        rfl
      · simp only [if_true] at hproduct ⊢
        rw [List.reverse_cons, IPath.productWords_append, hproduct, IPath.productWords,
          IPath.productWords, mul_one, hwords]
        exact (IPath.invertWords_mul _ _).symm

theorem visitPathSequences_right {alternatives : List (List PathAtom)}
    (h : ∀ atoms ∈ alternatives, atoms ≠ [] ∧ ∀ atom ∈ atoms, AtomRight R atom) (inverse : Bool) :
    ∃ ps, (visitPathSequences inverse alternatives : Except (QueryException R) _) = .ok ps ∧
      ps.length = alternatives.length ∧ (∀ p ∈ ps, p.HasMembers) ∧
      IPath.unionWords ps = directed inverse (languageOfSequences alternatives) := by
  induction alternatives with
  | nil =>
    refine ⟨[], rfl, rfl, by simp, ?_⟩
    cases inverse
    · rfl
    · show 0 = invertWords 0
      rw [invertWords, map_zero, Language.reverse_zero]
  | cons atoms rest ih =>
    obtain ⟨⟨hne, hatoms⟩, hrest⟩ := List.forall_mem_cons.mp h
    obtain ⟨ps, hps, hlength, hall, hproduct⟩ := visitPathAtoms_right hatoms inverse
    obtain ⟨qs, hqs, hlengths, halls, hunion⟩ := ih hrest
    have hmembers : ∀ p ∈ (if inverse then ps.reverse else ps), p.HasMembers := by
      split_ifs
      · exact fun p hp => hall p (List.mem_reverse.mp hp)
      · exact hall
    have hsome : (if inverse then ps.reverse else ps) ≠ [] := by
      rw [← List.length_pos_iff, apply_ite List.length, List.length_reverse, ite_self, hlength]
      exact List.length_pos_iff.mpr hne
    obtain ⟨hwords, hsingle⟩ := single_sequence_right hsome hmembers
    refine ⟨single .sequence (if inverse then ps.reverse else ps) :: qs, ?_, by simp [hlengths],
      List.forall_mem_cons.mpr ⟨hsingle, halls⟩, ?_⟩
    · rw [visitPathSequences, hps, hqs]
      rfl
    · rw [IPath.unionWords, hwords, hproduct, hunion, ← IPath.directed_add]
      rfl

theorem visitAlternatives_right {alternatives : List (List PathAtom)} (hne : alternatives ≠ [])
    (h : ∀ atoms ∈ alternatives, atoms ≠ [] ∧ ∀ atom ∈ atoms, AtomRight R atom) (inverse : Bool) :
    ∃ ps, (visitPathSequences inverse alternatives : Except (QueryException R) _) = .ok ps ∧
      (single .alternatives ps).words = directed inverse (languageOfSequences alternatives) ∧
      (single .alternatives ps).HasMembers := by
  obtain ⟨ps, hps, hlength, hall, hunion⟩ := visitPathSequences_right h inverse
  have hsome : ps ≠ [] := by
    rw [← List.length_pos_iff, hlength]
    exact List.length_pos_iff.mpr hne
  obtain ⟨hwords, hmembers⟩ := single_alternatives_right hsome hall
  exact ⟨ps, hps, hwords.trans hunion, hmembers⟩

theorem atomRight (atom : PathAtom) (hparsed : atom.Parsed) (h : ∀ r ∈ atom.ranges, Countable r) :
    AtomRight R atom := by
  induction atom using PathAtom.induct with
  | simple inv type suffix =>
    intro inverse
    have hwords : (IPath.atom type (inv ^^ inverse)).words =
        directed (inv ^^ inverse) {[(type, false)]} := by
      cases inv ^^ inverse
      · rfl
      · exact IPath.words_invert (.atom type false)
    obtain ⟨q, hq, hlanguage, hmembers⟩ :=
      visitSuffix_right (R := R) (p := .atom type (inv ^^ inverse)) trivial suffix h
    refine ⟨q, hq, ?_, hmembers⟩
    rw [hlanguage, hwords, PathAtom.language, ← IPath.directed_xor, directed_suffixLanguage]
  | alternatives inv alternatives suffix ih =>
    intro inverse
    obtain ⟨hne, hsequences⟩ := hparsed
    have hinside : ∀ atoms ∈ alternatives, atoms ≠ [] ∧ ∀ atom ∈ atoms, AtomRight R atom := by
      intro atoms hatoms
      obtain ⟨hsome, hatomsParsed⟩ := sequencesParsed_iff.mp hsequences atoms hatoms
      refine ⟨hsome, fun atom hatom => ?_⟩
      refine ih atoms hatoms atom hatom (atomsParsed_iff.mp hatomsParsed atom hatom) fun r hr => ?_
      exact h r (List.mem_append_left _ (mem_rangesOfSequences (mem_rangesOfAtoms hr hatom) hatoms))
    obtain ⟨ps, hps, hwords, hmembers⟩ := visitAlternatives_right hne hinside (inv ^^ inverse)
    obtain ⟨q, hq, hlanguage, hqmembers⟩ := visitSuffix_right (R := R) hmembers suffix
      fun r hr => h r (List.mem_append_right _ hr)
    refine ⟨q, ?_, ?_, hqmembers⟩
    · rw [visitPathAtom, hps]
      exact hq
    · rw [hlanguage, hwords, PathAtom.language, ← IPath.directed_xor, directed_suffixLanguage]

/-- What is expected of a path pattern: the visitor builds expressions for it and for its inverse,
in which no first member is missing; they denote the words that are written and the inverted
words, which are also those of `invert()`; and every repetition that is written in it denotes the
powers of its operand, whatever that is. -/
structure BuildsRight (R : Type) (pattern : List (List PathAtom)) : Prop where
  built : ∃ p q : IPath,
    (visitPathAlternatives pattern : Except (QueryException R) IPath) = .ok p ∧
    (visitPathAlternatives [[.alternatives true pattern none]] : Except (QueryException R) IPath) =
      .ok q ∧
    p.words = languageOfSequences pattern ∧ q.words = invertWords (languageOfSequences pattern) ∧
    q.words = p.invert.words ∧ p.HasMembers ∧ q.HasMembers ∧ p.invert.HasMembers
  repeats : ∀ r ∈ rangesOfSequences pattern, RepeatsRight R r

/-- A pattern is built right exactly when the bounds of its repetitions are in order, not both
zero and below `2 ^ 32`. -/
theorem buildsRight_iff (pattern : List (List PathAtom)) (hne : pattern ≠ [])
    (hparsed : SequencesParsed pattern) :
    BuildsRight R pattern ↔ ∀ r ∈ rangesOfSequences pattern, Countable r := by
  constructor
  · intro h r hr
    exact countable_of_repeatsRight (h.repeats r hr)
  · intro h
    have hatoms : ∀ atoms ∈ pattern, atoms ≠ [] ∧ ∀ atom ∈ atoms, AtomRight R atom := by
      intro atoms hmem
      obtain ⟨hsome, hatomsParsed⟩ := sequencesParsed_iff.mp hparsed atoms hmem
      refine ⟨hsome, fun atom hatom => atomRight atom (atomsParsed_iff.mp hatomsParsed atom hatom) ?_⟩
      exact fun r hr => h r (mem_rangesOfSequences (mem_rangesOfAtoms hr hatom) hmem)
    obtain ⟨ps, hps, hwords, hmembers⟩ := visitAlternatives_right hne hatoms false
    obtain ⟨qs, hqs, hinverted, hinverse⟩ := visitAlternatives_right hne hatoms true
    refine ⟨⟨_, _, ?_, ?_, hwords, hinverted, ?_, hmembers, hinverse, hmembers.invert⟩,
      fun r hr => repeatsRight_of_countable (h r hr)⟩
    · rw [visitPathAlternatives, hps]
      rfl
    · rw [visitPathAlternatives, visitPathSequences, visitPathAtoms, visitPathAtom, Bool.xor_false,
        hqs]
      rfl
    · rw [hinverted, IPath.words_invert, hwords]
      rfl

/-- `^(:a/:b){1,2}|:c*` -/
theorem buildsRight_repeatedInverse :
    BuildsRight Int [[.alternatives true [[.simple false "a" none, .simple false "b" none]]
      (some (.range 1 2))], [.simple false "c" (some .star)]] := by
  apply (buildsRight_iff _ (by simp) ?_).mpr
  · simp [rangesOfSequences, rangesOfAtoms, PathAtom.ranges, suffixRanges, Countable]
  · simp [SequencesParsed, AtomsParsed, PathAtom.Parsed]

/-- `:a{0,0}` is a sequence without a first member. -/
theorem not_buildsRight_noCopies :
    ¬ BuildsRight Int [[.simple false "a" (some (.range 0 0))]] := by
  intro h
  obtain ⟨p, _, hp, _, _, _, _, hmembers, _⟩ := h.built
  have hvisit : (visitPathAlternatives [[.simple false "a" (some (.range 0 0))]] :
      Except (QueryException Int) IPath) = .ok (.sequence []) := rfl
  obtain rfl : p = .sequence [] := Except.ok.inj (hp.symm.trans hvisit)
  exact hmembers.1 rfl

end paths

end Parser
end MillenniumDB
