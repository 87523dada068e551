import MillenniumDB.PatternPaths
import Mathlib.Data.Prod.Lex
import Mathlib.Data.String.Basic

/-!
# The orders of the elements of a pattern

A basic graph pattern keeps its elements in sets, by the `operator<` of each.  Those of edges and
properties compare one field after the other.  That of paths asks whether any of the fields is
smaller.
-/

namespace MillenniumDB
namespace Parser

namespace QueryElement

variable {R : Type} [LinearOrder R]

def index : QueryElement R → Nat
  | .var _ => 0
  | .namedNode _ => 1
  | .anonymousNode _ => 2
  | .edge _ => 3
  | .string _ => 4
  | .bool _ => 5
  | .int _ => 6
  | .float _ => 7

/-- `operator<`: variants compare their alternatives first. -/
def lt : QueryElement R → QueryElement R → Prop
  | .var x, .var y => x.name < y.name
  | .namedNode a, .namedNode b => a < b
  | .anonymousNode m, .anonymousNode n => m < n
  | .edge m, .edge n => m < n
  | .string a, .string b => a < b
  | .bool a, .bool b => a < b
  | .int a, .int b => a < b
  | .float a, .float b => a < b
  | a, b => a.index < b.index

/-- The alternative, and the values of every kind with defaults for the other kinds. -/
def key : QueryElement R → Nat ×ₗ List Char ×ₗ String ×ₗ Int ×ₗ WithBot R
  | .var x => toLex (0, toLex (x.name, toLex ("", toLex (0, ⊥))))
  | .namedNode a => toLex (1, toLex ([], toLex (a, toLex (0, ⊥))))
  | .anonymousNode n => toLex (2, toLex ([], toLex ("", toLex ((n : Int), ⊥))))
  | .edge n => toLex (3, toLex ([], toLex ("", toLex ((n : Int), ⊥))))
  | .string a => toLex (4, toLex ([], toLex (a, toLex (0, ⊥))))
  | .bool b => toLex (5, toLex ([], toLex ("", toLex (if b then 1 else 0, ⊥))))
  | .int n => toLex (6, toLex ([], toLex ("", toLex (n, ⊥))))
  | .float r => toLex (7, toLex ([], toLex ("", toLex (0, (r : WithBot R)))))

omit [LinearOrder R] in
theorem exists_key (a : QueryElement R) : ∃ rest, a.key = toLex (a.index, rest) := by
  cases a
  all_goals exact ⟨_, rfl⟩

omit [LinearOrder R] in
theorem index_eq_of_key {a b : QueryElement R} (h : a.key = b.key) : a.index = b.index := by
  obtain ⟨resta, ha⟩ := exists_key a
  obtain ⟨restb, hb⟩ := exists_key b
  rw [ha, hb] at h
  exact congrArg (fun p => (ofLex p).1) h

theorem key_lt_of_index_ne {a b : QueryElement R} (h : a.index ≠ b.index) :
    a.key < b.key ↔ a.index < b.index := by
  obtain ⟨resta, ha⟩ := exists_key a
  obtain ⟨restb, hb⟩ := exists_key b
  rw [ha, hb, Prod.Lex.toLex_lt_toLex]
  exact or_iff_left fun hsame => h hsame.1

omit [LinearOrder R] in
theorem key_injective : Function.Injective (key : QueryElement R → _) := by
  intro a b h
  -- different alternatives have different keys
  cases a <;> cases b <;> first
    | exact absurd (index_eq_of_key h) (Nat.ne_of_beq_eq_false rfl)
    | simp [key] at h
  case var.var => rw [ElementVar.name_injective h]
  case bool.bool a b =>
    cases a <;> cases b <;> simp at h ⊢
  case anonymousNode.anonymousNode => exact congrArg _ (by omega)
  case edge.edge => exact congrArg _ (by omega)
  all_goals rw [h]

theorem lt_iff_key (a b : QueryElement R) : a.lt b ↔ a.key < b.key := by
  cases a <;> cases b <;> first
    | exact (key_lt_of_index_ne (Nat.ne_of_beq_eq_false rfl)).symm
    | simp [lt, key, Prod.Lex.lt_iff]
  case bool.bool a b => cases a <;> cases b <;> simp

instance : LinearOrder (QueryElement R) := LinearOrder.lift' key key_injective

/-- The order of the elements is that of their `operator<`. -/
theorem lt_iff (a b : QueryElement R) : a < b ↔ a.lt b := (lt_iff_key a b).symm

instance (a b : QueryElement R) : Decidable (a.lt b) := decidable_of_iff _ (lt_iff a b)

end QueryElement

section

variable {R : Type} [LinearOrder R]

/-- `operator<`. -/
def OpEdge.lt (a b : OpEdge R) : Prop :=
  if a.source.lt b.source then True
  else if b.source.lt a.source then False
  else if a.target.lt b.target then True
  else if b.target.lt a.target then False
  else if a.edge.lt b.edge then True
  else if b.edge.lt a.edge then False
  else a.type.lt b.type

/-- `operator<`: only node and key are compared, not the value. -/
def OpProperty.lt (a b : OpProperty R) : Prop :=
  if a.node.lt b.node then True
  else if b.node.lt a.node then False
  else a.key < b.key

end

mutual

/-- `to_string`, which reads the first member of a sequence or of alternatives without asking whether
there is one: it has no result for an empty vector. -/
def pathToString : IPath → Option String
  | .atom atom inverse => some (if inverse then "^:" ++ atom else ":" ++ atom)
  | .sequence ps => (pathsToString "/" ps).map fun text => "(" ++ text ++ ")"
  | .alternatives ps => (pathsToString "|" ps).map fun text => "(" ++ text ++ ")"
  | .optional p => (pathToString p).map fun text => "(" ++ text ++ ")?"
  | .kleeneStar p => (pathToString p).map fun text => "(" ++ text ++ ")*"

def pathsToString (separator : String) : List IPath → Option String
  | [] => none
  | [p] => pathToString p
  | p :: q :: ps => do
    let first ← pathToString p
    let rest ← pathsToString separator (q :: ps)
    return first ++ separator ++ rest

end

section

variable {R : Type} [LinearOrder R]

/-- `operator<`, where `IPath::operator<` compares the texts. -/
def OpPath.lt (a b : OpPath R) : Option Bool :=
  if a.source.lt b.source then some true
  else if a.target.lt b.target then some true
  else do
    let left ← pathToString a.path
    let right ← pathToString b.path
    return decide (left < right)

def OpPath.text (a : OpPath R) : String := (pathToString a.path).getD ""

structure OpPath.Same (a b : OpPath R) : Prop where
  source : a.source = b.source
  target : a.target = b.target
  path : a.path = b.path
  var : a.var = b.var

def OpPath.Before (a b : OpPath R) : Prop := a.lt b = some true

instance (a b : OpPath R) : Decidable (a.Before b) := inferInstanceAs (Decidable (_ = _))

/-- `insert` of a set: nothing is added when an element is equivalent. -/
def insertPath (paths : List (OpPath R)) (p : OpPath R) : List (OpPath R) :=
  if ∃ q ∈ paths, ¬ q.Before p ∧ ¬ p.Before q then paths else p :: paths

def pathSet (ps : List (OpPath R)) : List (OpPath R) := ps.foldl insertPath []

/-- Every two paths of a query are compared, and they are ordered strictly and weakly; those that are
equivalent say the same, and every path survives in the set. -/
structure StoredRight (ps : List (OpPath R)) : Prop where
  compared : ∀ p ∈ ps, ∀ q ∈ ps, (p.lt q).isSome
  strictWeakOrder : IsStrictWeakOrder {p // p ∈ ps} fun p q => p.1.Before q.1
  same_of_equivalent : ∀ p ∈ ps, ∀ q ∈ ps, ¬ p.Before q → ¬ q.Before p → p.Same q
  survives : ∀ p ∈ ps, ∃ q ∈ pathSet ps, p.Same q

structure OpPath.NotAfter (a b : OpPath R) : Prop where
  source : ¬ b.source.lt a.source
  target : ¬ b.target.lt a.target
  text : ¬ b.text < a.text

/-- Two paths do not disagree on which of them is before the other, and they say the same when
they agree in the ends and the text. -/
structure OpPath.Comparable (a b : OpPath R) : Prop where
  ordered : a.NotAfter b ∨ b.NotAfter a
  same : a.source = b.source → a.target = b.target → a.text = b.text → a.Same b

end

section

variable {R : Type} [LinearOrder R]

theorem isStrictWeakOrder_of_key {α β : Type*} [LinearOrder β] {lt : α → α → Prop} (key : α → β)
    (h : ∀ a b, lt a b ↔ key a < key b) : IsStrictWeakOrder α lt where
  irrefl a := by
    rw [h]
    exact lt_irrefl _
  trans a b c := by
    simp only [h]
    exact lt_trans
  incomp_trans a b c := by
    simp only [h, not_lt]
    intro ⟨hab, hba⟩ ⟨hbc, hcb⟩
    exact ⟨hbc.trans hab, hba.trans hcb⟩

theorem OpEdge.isStrictWeakOrder : IsStrictWeakOrder (OpEdge R) OpEdge.lt := by
  apply isStrictWeakOrder_of_key fun e : OpEdge R =>
    toLex (e.source, toLex (e.target, toLex (e.edge, e.type)))
  intro a b
  simp only [OpEdge.lt, ← QueryElement.lt_iff, Prod.Lex.toLex_lt_toLex]
  rcases lt_trichotomy a.source b.source with hs | hs | hs
  · simp [hs]
  · rcases lt_trichotomy a.target b.target with ht | ht | ht
    · simp [hs, ht]
    · rcases lt_trichotomy a.edge b.edge with he | he | he
      · simp [hs, ht, he]
      · simp [hs, ht, he]
      · simp [hs, ht, he, he.not_gt, he.ne']
    · simp [hs, ht, ht.not_gt, ht.ne']
  · simp [hs, hs.not_gt, hs.ne']

theorem OpProperty.isStrictWeakOrder : IsStrictWeakOrder (OpProperty R) OpProperty.lt := by
  apply isStrictWeakOrder_of_key fun p : OpProperty R => toLex (p.node, p.key)
  intro a b
  simp only [OpProperty.lt, ← QueryElement.lt_iff, Prod.Lex.toLex_lt_toLex]
  rcases lt_trichotomy a.node b.node with h | h | h
  · simp [h]
  · simp [h]
  · simp [h, h.not_gt, h.ne']

end

theorem isSome_pathsToString (separator : String) : ∀ ps : List IPath,
    (pathsToString separator ps).isSome ↔ ps ≠ [] ∧ ∀ p ∈ ps, (pathToString p).isSome
  | [] => by simp [pathsToString]
  | [p] => by simp [pathsToString]
  | p :: q :: ps => by
    have ih := isSome_pathsToString separator (q :: ps)
    rw [List.forall_mem_cons, pathsToString]
    cases hfirst : pathToString p with
    | none => simp
    | some first =>
      cases hrest : pathsToString separator (q :: ps) with
      | none =>
        rw [hrest] at ih
        simpa using ih
      | some rest =>
        rw [hrest] at ih
        simpa using ih

/-- A path has a text when every sequence and every list of alternatives in it has a member. -/
theorem isSome_pathToString {p : IPath} : (pathToString p).isSome ↔ p.HasMembers := by
  induction p using IPath.induct with
  | atom a inverse => simp [pathToString, IPath.HasMembers]
  | sequence ps ih =>
    rw [pathToString, Option.isSome_map, isSome_pathsToString, IPath.hasMembers_sequence]
    exact and_congr_right fun _ => forall₂_congr ih
  | alternatives ps ih =>
    rw [pathToString, Option.isSome_map, isSome_pathsToString, IPath.hasMembers_alternatives]
    exact and_congr_right fun _ => forall₂_congr ih
  | optional p ih => rw [pathToString, Option.isSome_map, ih, IPath.HasMembers]
  | kleeneStar p ih => rw [pathToString, Option.isSome_map, ih, IPath.HasMembers]

namespace OpPath

variable {R : Type} [LinearOrder R] {a b c : OpPath R} {ps : List (OpPath R)}

theorem lt_eq (ha : a.path.HasMembers) (hb : b.path.HasMembers) :
    a.lt b = some (decide (a.source.lt b.source ∨ a.target.lt b.target ∨ a.text < b.text)) := by
  obtain ⟨left, hleft⟩ := Option.isSome_iff_exists.mp (isSome_pathToString.mpr ha)
  obtain ⟨right, hright⟩ := Option.isSome_iff_exists.mp (isSome_pathToString.mpr hb)
  rw [OpPath.lt, text, text, hleft, hright]
  split_ifs <;> simp_all

theorem hasMembers_of_lt (h : (a.lt a).isSome) : a.path.HasMembers := by
  rw [← isSome_pathToString]
  have hsource : ¬ a.source.lt a.source := by simp [← QueryElement.lt_iff]
  have htarget : ¬ a.target.lt a.target := by simp [← QueryElement.lt_iff]
  rw [OpPath.lt, if_neg hsource, if_neg htarget] at h
  cases htext : pathToString a.path with
  | none =>
    rw [htext] at h
    cases h
  | some text => rfl

theorem before_iff (ha : a.path.HasMembers) (hb : b.path.HasMembers) :
    a.Before b ↔ ¬ b.NotAfter a := by
  have hafter : b.NotAfter a ↔ ¬ a.source.lt b.source ∧ ¬ a.target.lt b.target ∧
      ¬ a.text < b.text :=
    ⟨fun h => ⟨h.source, h.target, h.text⟩, fun ⟨hs, ht, hp⟩ => ⟨hs, ht, hp⟩⟩
  rw [Before, lt_eq ha hb, Option.some.injEq, decide_eq_true_iff, hafter]
  tauto

theorem NotAfter.refl (a : OpPath R) : a.NotAfter a := by
  constructor <;> simp [← QueryElement.lt_iff]

theorem NotAfter.trans (hab : a.NotAfter b) (hbc : b.NotAfter c) : a.NotAfter c := by
  obtain ⟨hs, ht, hp⟩ := hab
  obtain ⟨hs', ht', hp'⟩ := hbc
  simp only [← QueryElement.lt_iff, not_lt] at hs ht hp hs' ht' hp'
  constructor <;> simp only [← QueryElement.lt_iff, not_lt]
  · exact hs.trans hs'
  · exact ht.trans ht'
  · exact hp.trans hp'

theorem NotAfter.antisymm (hab : a.NotAfter b) (hba : b.NotAfter a) :
    a.source = b.source ∧ a.target = b.target ∧ a.text = b.text := by
  obtain ⟨hs, ht, hp⟩ := hab
  obtain ⟨hs', ht', hp'⟩ := hba
  simp only [← QueryElement.lt_iff, not_lt] at hs ht hp hs' ht' hp'
  exact ⟨le_antisymm hs hs', le_antisymm ht ht', le_antisymm hp hp'⟩

theorem pathSet_spec (ps : List (OpPath R)) (hmembers : ∀ p ∈ ps, p.path.HasMembers) :
    (∀ q ∈ pathSet ps, q ∈ ps) ∧ ∀ p ∈ ps, ∃ q ∈ pathSet ps, ¬ q.Before p ∧ ¬ p.Before q := by
  induction ps using List.reverseRecOn with
  | nil => simp [pathSet]
  | append_singleton ps p ih =>
    obtain ⟨hps, hp⟩ := List.forall_mem_append.mp hmembers
    obtain ⟨hsub, hfound⟩ := ih hps
    have hstep : pathSet (ps ++ [p]) = insertPath (pathSet ps) p := by
      simp [pathSet, List.foldl_append]
    rw [hstep, insertPath]
    split_ifs with hequivalent
    · refine ⟨fun q hq => List.mem_append_left _ (hsub q hq), fun q hq => ?_⟩
      rcases List.mem_append.mp hq with hq | hq
      · exact hfound q hq
      · rw [List.mem_singleton.mp hq]
        exact hequivalent
    · have hself : ¬ p.Before p := by
        have hpath := List.forall_mem_singleton.mp hp
        rw [before_iff hpath hpath, not_not]
        exact .refl p
      constructor
      · intro q hq
        rcases List.mem_cons.mp hq with rfl | hq
        · exact List.mem_append_right _ (List.mem_singleton.mpr rfl)
        · exact List.mem_append_left _ (hsub q hq)
      · intro q hq
        rcases List.mem_append.mp hq with hq | hq
        · obtain ⟨q', hq', h⟩ := hfound q hq
          exact ⟨q', List.mem_cons_of_mem _ hq', h⟩
        · rw [List.mem_singleton.mp hq]
          exact ⟨p, List.mem_cons_self .., hself, hself⟩

theorem storedRight_of_comparable (hmembers : ∀ p ∈ ps, p.path.HasMembers)
    (h : ∀ p ∈ ps, ∀ q ∈ ps, p.Comparable q) : StoredRight ps := by
  have hiff : ∀ p ∈ ps, ∀ q ∈ ps, (p.Before q ↔ ¬ q.NotAfter p) := fun p hp q hq =>
    before_iff (hmembers p hp) (hmembers q hq)
  have hsame : ∀ p ∈ ps, ∀ q ∈ ps, ¬ p.Before q → ¬ q.Before p → p.Same q := by
    intro p hp q hq hpq hqp
    rw [hiff p hp q hq, not_not] at hpq
    rw [hiff q hq p hp, not_not] at hqp
    obtain ⟨hs, ht, htext⟩ := hqp.antisymm hpq
    exact (h p hp q hq).same hs ht htext
  refine ⟨fun p hp q hq => by rw [lt_eq (hmembers p hp) (hmembers q hq)]; rfl, ?_, hsame,
    fun p hp => ?_⟩
  · -- of two paths one is not after the other, so that being before is not being after
    have hbefore : ∀ p ∈ ps, ∀ q ∈ ps, p.Before q → p.NotAfter q := by
      intro p hp q hq hlt
      rw [hiff p hp q hq] at hlt
      exact ((h p hp q hq).ordered).resolve_right hlt
    exact {
      irrefl := fun p hlt => (hiff p p.2 p p.2).mp hlt (.refl p.1)
      trans := by
        intro p q r hpq hqr
        rw [hiff p p.2 q q.2] at hpq
        rw [hiff p p.2 r r.2]
        intro hrp
        exact hpq ((hbefore q q.2 r r.2 hqr).trans hrp)
      incomp_trans := by
        intro p q r
        rw [hiff p p.2 q q.2, hiff q q.2 p p.2, hiff q q.2 r r.2, hiff r r.2 q q.2,
          hiff p p.2 r r.2, hiff r r.2 p p.2]
        simp only [not_not]
        intro ⟨hqp, hpq⟩ ⟨hrq, hqr⟩
        exact ⟨hrq.trans hqp, hpq.trans hqr⟩ }
  · obtain ⟨hsub, hfound⟩ := pathSet_spec ps hmembers
    obtain ⟨q, hq, hqp, hpq⟩ := hfound p hp
    exact ⟨q, hq, hsame p hp q (hsub q hq) hpq hqp⟩

/-- The orders of edges and properties are strict and weak.  The paths of a query are stored right
exactly when none of them has an empty sequence or empty alternatives and every two of them are
comparable. -/
theorem storedRight_iff (ps : List (OpPath R)) :
    IsStrictWeakOrder (OpEdge R) OpEdge.lt ∧ IsStrictWeakOrder (OpProperty R) OpProperty.lt ∧
      (StoredRight ps ↔
        (∀ p ∈ ps, p.path.HasMembers) ∧ ∀ p ∈ ps, ∀ q ∈ ps, p.Comparable q) := by
  refine ⟨OpEdge.isStrictWeakOrder, OpProperty.isStrictWeakOrder, fun h => ?_,
    fun ⟨hmembers, h⟩ => storedRight_of_comparable hmembers h⟩
  have hmembers : ∀ p ∈ ps, p.path.HasMembers := fun p hp => hasMembers_of_lt (h.compared p hp p hp)
  refine ⟨hmembers, fun p hp q hq => ⟨?_, ?_⟩⟩
  · by_contra! hboth
    obtain ⟨hpq, hqp⟩ := hboth
    rw [← before_iff (hmembers q hq) (hmembers p hp)] at hpq
    rw [← before_iff (hmembers p hp) (hmembers q hq)] at hqp
    have hloop := h.strictWeakOrder.trans ⟨p, hp⟩ ⟨q, hq⟩ ⟨p, hp⟩ hqp hpq
    exact h.strictWeakOrder.irrefl _ hloop
  · intro hs ht htext
    apply h.same_of_equivalent p hp q hq
    · rw [before_iff (hmembers p hp) (hmembers q hq), not_not]
      constructor <;> simp [← QueryElement.lt_iff, hs, ht, htext]
    · rw [before_iff (hmembers q hq) (hmembers p hp), not_not]
      constructor <;> simp [← QueryElement.lt_iff, hs, ht, htext]

/-- `(A)=[:p]=>(D), (B)=[:p]=>(C)`: each of the two paths is before the other. -/
theorem not_storedRight : ¬ ∀ ps : List (OpPath Int), StoredRight ps := by
  intro h
  let p : OpPath Int := ⟨.anon 0, .namedNode "A", .namedNode "D", .any, .atom "p" false⟩
  let q : OpPath Int := ⟨.anon 1, .namedNode "B", .namedNode "C", .any, .atom "p" false⟩
  have hpq : p.Before q := if_pos (by decide)
  have hqp : q.Before p := by
    rw [before_iff (a := q) (b := p) trivial trivial]
    intro hafter
    exact hafter.target (by decide)
  have horder := (h [p, q]).strictWeakOrder
  exact horder.irrefl _ (horder.trans ⟨p, by simp⟩ ⟨q, by simp⟩ ⟨p, by simp⟩ hpq hqp)

end OpPath

end Parser
end MillenniumDB
