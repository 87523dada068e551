import MillenniumDB.PatternCheck

/-!
# Patterns as written

The variables written in a pattern, and those that the visitor collects for it.  The parser
rejects a pattern for the variables that it collects, and so it is right when they are well
designed exactly when the variables as written are.
-/

namespace MillenniumDB
namespace Parser

abbrev UserVar := VarName ⊕ VarName × String

def UserVar.toVar : UserVar → Var
  | .inl x => .element (.named x)
  | .inr (x, key) => .property (.named x) key

def Var.number : Var → Option Nat
  | .element (.anon n) => some n
  | .property (.anon n) _ => some n
  | _ => none

theorem UserVar.eq_of_toVar {u w : UserVar} (h : u.toVar = w.toVar) : u = w := by
  match u, w with
  | .inl x, .inl y =>
    simp only [toVar, Var.element.injEq, ElementVar.named.injEq] at h
    rw [h]
  | .inl x, .inr (y, key) => cases h
  | .inr (x, key), .inl y => cases h
  | .inr (x, key), .inr (y, key') =>
    simp only [toVar, Var.property.injEq, ElementVar.named.injEq] at h
    rw [h.1, h.2]

theorem UserVar.toVar_injective : Function.Injective UserVar.toVar := fun _ _ => eq_of_toVar

@[simp] theorem UserVar.number_toVar (u : UserVar) : u.toVar.number = none := by
  rcases u with x | ⟨x, key⟩ <;> rfl

theorem exists_toVar {v : Var} (h : v.number = none) : ∃ u : UserVar, u.toVar = v := by
  match v with
  | .element (.named x) => exact ⟨.inl x, rfl⟩
  | .property (.named x) key => exact ⟨.inr (x, key), rfl⟩

def Node.names : Node → List VarName
  | .var (some x) _ _ => [x]
  | _ => []

def Node.keys : Node → List (VarName × String)
  | .var (some x) _ properties => properties.map fun p => (x, p.key)
  | _ => []

def EdgeId.names : Option EdgeId → List VarName
  | some (.var x) => [x]
  | _ => []

def EdgeType.names : Option EdgeType → List VarName
  | some (.var x) => [x]
  | _ => []

def Link.names : Link → List VarName
  | .edge _ inside => EdgeId.names (insideOf inside).id ++ EdgeType.names (insideOf inside).type
  | .path _ _ var _ => var.toList

def Link.keys : Link → List (VarName × String)
  | .edge _ inside => (EdgeId.names (insideOf inside).id).flatMap fun x =>
    (insideOf inside).properties.map fun p => (x, p.key)
  | .path _ _ _ _ => []

def linksNames (rest : List (Link × Node)) : List VarName :=
  rest.flatMap fun row => row.1.names ++ row.2.names

def linksKeys (rest : List (Link × Node)) : List (VarName × String) :=
  rest.flatMap fun row => row.1.keys ++ row.2.keys

def LinearPattern.names (p : LinearPattern) : List VarName := p.first.names ++ linksNames p.rest

def LinearPattern.keys (p : LinearPattern) : List (VarName × String) :=
  p.first.keys ++ linksKeys p.rest

def LinearPattern.lone (p : LinearPattern) : List VarName :=
  match p.rest, p.first with
  | [], .var (some x) [] [] => [x]
  | _, _ => []

def names (ps : List LinearPattern) : List VarName := ps.flatMap LinearPattern.names

def keys (ps : List LinearPattern) : List (VarName × String) := ps.flatMap LinearPattern.keys

def lone (ps : List LinearPattern) : List VarName := ps.flatMap LinearPattern.lone

namespace GraphPattern

mutual

def written : GraphPattern → VarTree VarName
  | node basicPattern optionalPattern => .node (names basicPattern) (writtenAll optionalPattern)

def writtenAll : List GraphPattern → List (VarTree VarName)
  | [] => []
  | p :: ps => written p :: writtenAll ps

end

mutual

def loneVars : GraphPattern → List VarName
  | node basicPattern optionalPattern => lone basicPattern ++ loneVarsAll optionalPattern

def loneVarsAll : List GraphPattern → List VarName
  | [] => []
  | p :: ps => loneVars p ++ loneVarsAll ps

end

/-- The variables of a basic pattern with those of properties, and with the lone variables
`seen` in it and before it. -/
def collectedVars (seen : List VarName) (ps : List LinearPattern) : List UserVar :=
  (names ps).map .inl ++ (keys ps).map .inr ++ seen.map .inl

mutual

/-- The variables written in every basic pattern, with those of properties, and with the lone
variables of the basic patterns before it in the text. -/
def collected (seen : List VarName) : GraphPattern → VarTree UserVar
  | node basicPattern optionalPattern =>
    .node (collectedVars (seen ++ lone basicPattern) basicPattern)
      (collectedAll (seen ++ lone basicPattern) optionalPattern)

def collectedAll (seen : List VarName) : List GraphPattern → List (VarTree UserVar)
  | [] => []
  | p :: ps => collected seen p :: collectedAll (seen ++ loneVars p) ps

end

mutual

/-- The variables `?x.key` of the properties written in a pattern. -/
def writtenKeys : GraphPattern → VarTree (VarName × String)
  | node basicPattern optionalPattern => .node (keys basicPattern) (writtenKeysAll optionalPattern)

def writtenKeysAll : List GraphPattern → List (VarTree (VarName × String))
  | [] => []
  | p :: ps => writtenKeys p :: writtenKeysAll ps

end

mutual

/-- The variables written in every basic pattern that do not stand alone in one before it. -/
def writtenEarly (seen : List VarName) : GraphPattern → VarTree VarName
  | node basicPattern optionalPattern =>
    .node ((names basicPattern).filter fun x => x ∉ seen)
      (writtenEarlyAll (seen ++ lone basicPattern) optionalPattern)

def writtenEarlyAll (seen : List VarName) : List GraphPattern → List (VarTree VarName)
  | [] => []
  | p :: ps => writtenEarly seen p :: writtenEarlyAll (seen ++ loneVars p) ps

end

mutual

/-- Where the variable stands alone in an optional pattern that another one follows, the pattern
that both are attached to has it, or it stands alone before that pattern. -/
def LoneWritten (x : VarName) (seen : List VarName) : GraphPattern → Prop
  | node basicPattern optionalPattern =>
    LoneWrittenAll x (x ∈ seen ++ names basicPattern) (seen ++ lone basicPattern) optionalPattern

def LoneWrittenAll (x : VarName) (parent : Prop) (seen : List VarName) : List GraphPattern → Prop
  | [] => True
  | p :: ps => (x ∈ loneVars p → ps = [] ∨ parent) ∧ LoneWritten x seen p ∧
      LoneWrittenAll x parent (seen ++ loneVars p) ps

end

mutual

def next (c : Nat) : GraphPattern → Nat
  | node basicPattern optionalPattern => nextAll (nextBasic c basicPattern) optionalPattern

def nextAll (c : Nat) : List GraphPattern → Nat
  | [] => c
  | p :: ps => nextAll (next c p) ps

end

section

variable {R : Type} (stof : String → Option R)

mutual

/-- The numbers of a pattern are in range, and no basic pattern has two values for one property
of a node or an edge. -/
def Readable (c : Nat) : GraphPattern → Prop
  | node basicPattern optionalPattern =>
    (basicContribution c basicPattern).Fits stof [] ∧
      ReadableAll (nextBasic c basicPattern) optionalPattern

def ReadableAll (c : Nat) : List GraphPattern → Prop
  | [] => True
  | p :: ps => Readable c p ∧ ReadableAll (next c p) ps

end

end

end GraphPattern

namespace GraphPattern

variable {x : VarName} {k : VarName × String}

theorem names_of_lone {ps : List LinearPattern} (h : x ∈ lone ps) : x ∈ names ps := by
  obtain ⟨p, hp, hx⟩ := List.mem_flatMap.mp h
  refine List.mem_flatMap.mpr ⟨p, hp, ?_⟩
  unfold LinearPattern.lone at hx
  split at hx
  · next hfirst => exact List.mem_append_left _ (by simpa [hfirst, Node.names] using hx)
  · cases hx

theorem inl_mem_collectedVars {seen : List VarName} {ps : List LinearPattern} :
    .inl x ∈ collectedVars (seen ++ lone ps) ps ↔ x ∈ seen ∨ x ∈ names ps := by
  have hlone : x ∈ lone ps → x ∈ names ps := names_of_lone
  simp only [collectedVars, List.mem_append, List.mem_map, Sum.inl.injEq, exists_eq_right,
    reduceCtorEq, and_false, exists_false, or_false]
  tauto

mutual

theorem occursAlike_keys (p : GraphPattern) (seen : List VarName) :
    VarTree.OccursAlike (.inr k) k (collected seen p) (writtenKeys p) := by
  match p with
  | .node basicPattern optionalPattern =>
    exact ⟨by simp [collectedVars], occursAlikeAll_keys optionalPattern _⟩

theorem occursAlikeAll_keys (ps : List GraphPattern) (seen : List VarName) :
    VarTree.OccursAlikeAll (.inr k) k (collectedAll seen ps) (writtenKeysAll ps) := by
  match ps with
  | [] => exact trivial
  | p :: ps => exact ⟨occursAlike_keys p seen, occursAlikeAll_keys ps _⟩

end

mutual

/-- After a basic pattern in which the variable stands alone it is in every one. -/
theorem collected_of_seen (p : GraphPattern) {seen : List VarName} (hx : x ∈ seen) :
    .inl x ∈ (collected seen p).vars ∧ ∀ out, (collected seen p).WellDesignedAt (.inl x) out := by
  match p with
  | .node basicPattern optionalPattern =>
    have hmem := inl_mem_collectedVars.mpr (.inl hx : x ∈ seen ∨ x ∈ names basicPattern)
    refine ⟨.inl hmem, fun out => ?_⟩
    exact (collectedAll_of_seen optionalPattern _ (List.mem_append_left _ hx) (.inr hmem)).2.mpr
      (.inr hmem)

theorem collectedAll_of_seen (ps : List GraphPattern) {seen : List VarName} {out : Prop}
    (parent : Prop) (hx : x ∈ seen) (hout : out) :
    (.inl x ∈ VarTree.varsAll (collectedAll seen ps) ↔ ps ≠ []) ∧
      (VarTree.ChildrenWellDesignedAt (.inl x) out parent (collectedAll seen ps) ↔ ps = [] ∨ parent) := by
  match ps with
  | [] => simp [collectedAll, VarTree.varsAll, VarTree.ChildrenWellDesignedAt]
  | p :: ps =>
    obtain ⟨hmem, hwell⟩ := collected_of_seen p hx
    have hchildren := (collectedAll_of_seen ps parent (List.mem_append_left (loneVars p) hx)
      (Or.inl hout : out ∨ .inl x ∈ (collected seen p).vars)).2
    refine ⟨by simp [collectedAll, VarTree.varsAll, hmem], ?_⟩
    rw [collectedAll, VarTree.ChildrenWellDesignedAt, hchildren]
    have := hwell (out ∨ .inl x ∈ VarTree.varsAll (collectedAll (seen ++ loneVars p) ps))
    simp only [reduceCtorEq, false_or]
    tauto

end

mutual

theorem notMem_writtenEarly (p : GraphPattern) {seen : List VarName} (hx : x ∈ seen) : x ∉ (writtenEarly seen p).vars := by
  match p with
  | .node basicPattern optionalPattern =>
    rw [writtenEarly, VarTree.vars, Set.mem_union, not_or]
    exact ⟨by simp [hx], notMem_writtenEarlyAll optionalPattern (List.mem_append_left _ hx)⟩

theorem notMem_writtenEarlyAll (ps : List GraphPattern) {seen : List VarName} (hx : x ∈ seen) :
    x ∉ VarTree.varsAll (writtenEarlyAll seen ps) := by
  match ps with
  | [] => simp [writtenEarlyAll, VarTree.varsAll]
  | p :: ps =>
    rw [writtenEarlyAll, VarTree.varsAll, Set.mem_union, not_or]
    exact ⟨notMem_writtenEarly p hx, notMem_writtenEarlyAll ps (List.mem_append_left _ hx)⟩

end

mutual

theorem loneWritten_of_seen (p : GraphPattern) {seen : List VarName} (hx : x ∈ seen) : p.LoneWritten x seen := by
  match p with
  | .node basicPattern optionalPattern =>
    exact loneWrittenAll_of_seen optionalPattern (List.mem_append_left _ hx)
      (.inr (List.mem_append_left _ hx))

theorem loneWrittenAll_of_seen (ps : List GraphPattern) {seen : List VarName} {parent : Prop}
    (hx : x ∈ seen) (hparent : ps = [] ∨ parent) :
    LoneWrittenAll x parent seen ps := by
  match ps with
  | [] => exact trivial
  | p :: ps =>
    have hparent := hparent.resolve_left (by simp)
    exact ⟨fun _ => .inr hparent, loneWritten_of_seen p hx,
      loneWrittenAll_of_seen ps (List.mem_append_left _ hx) (.inr hparent)⟩

end

mutual

theorem mem_collected_of_lone (p : GraphPattern) {seen : List VarName} (hx : x ∈ loneVars p) :
    .inl x ∈ (collected seen p).vars := by
  match p with
  | .node basicPattern optionalPattern =>
    rw [loneVars, List.mem_append] at hx
    rcases hx with hx | hx
    · exact .inl (inl_mem_collectedVars.mpr (.inr (names_of_lone hx)))
    · exact .inr (mem_collectedAll_of_lone optionalPattern hx)

theorem mem_collectedAll_of_lone (ps : List GraphPattern) {seen : List VarName}
    (hx : x ∈ loneVarsAll ps) : .inl x ∈ VarTree.varsAll (collectedAll seen ps) := by
  match ps with
  | [] => cases hx
  | p :: ps =>
    rw [loneVarsAll, List.mem_append] at hx
    rcases hx with hx | hx
    · exact .inl (mem_collected_of_lone p hx)
    · exact .inr (mem_collectedAll_of_lone ps hx)

end

mutual

theorem mem_collected_iff (p : GraphPattern) {seen : List VarName} (hx : x ∉ seen) :
    .inl x ∈ (collected seen p).vars ↔ x ∈ (writtenEarly seen p).vars := by
  match p with
  | .node basicPattern optionalPattern =>
    rw [collected, writtenEarly, VarTree.vars, VarTree.vars, Set.mem_union, Set.mem_union,
      Set.mem_ofPred_eq, inl_mem_collectedVars, Set.mem_ofPred_eq, List.mem_filter]
    by_cases hnames : x ∈ names basicPattern
    · simp [hx, hnames]
    · have hlone : x ∉ seen ++ lone basicPattern := by
        simpa [hx] using fun h => hnames (names_of_lone h)
      rw [mem_collectedAll_iff optionalPattern hlone]
      simp [hx, hnames]

theorem mem_collectedAll_iff (ps : List GraphPattern) {seen : List VarName} (hx : x ∉ seen) :
    .inl x ∈ VarTree.varsAll (collectedAll seen ps) ↔
      x ∈ VarTree.varsAll (writtenEarlyAll seen ps) := by
  match ps with
  | [] => simp [collectedAll, writtenEarlyAll, VarTree.varsAll]
  | p :: ps =>
    rw [collectedAll, writtenEarlyAll, VarTree.varsAll, VarTree.varsAll, Set.mem_union, Set.mem_union,
      mem_collected_iff p hx]
    by_cases hlone : x ∈ loneVars p
    · have hmem := (mem_collected_iff p hx).mp (mem_collected_of_lone p hlone)
      simp [hmem]
    · rw [mem_collectedAll_iff ps (by simp [hx, hlone])]

end

mutual

theorem wellDesignedAt_collected_iff (p : GraphPattern) {seen : List VarName} (hx : x ∉ seen)
    (out : Prop) :
    (collected seen p).WellDesignedAt (.inl x) out ↔
      (writtenEarly seen p).WellDesignedAt x out ∧ p.LoneWritten x seen := by
  match p with
  | .node basicPattern optionalPattern =>
    have hnode : .inl x ∈ collectedVars (seen ++ lone basicPattern) basicPattern ↔
        x ∈ (names basicPattern).filter fun x => x ∉ seen := by
      rw [inl_mem_collectedVars, List.mem_filter]
      simp [hx]
    rw [collected, writtenEarly, LoneWritten, VarTree.WellDesignedAt, VarTree.WellDesignedAt, hnode]
    have hparent : (x ∈ seen ++ names basicPattern) = (x ∈ (names basicPattern).filter fun x => x ∉ seen) := by
      simp [hx]
    rw [hparent]
    by_cases hlone : x ∈ lone basicPattern
    · have hseen := List.mem_append_right seen hlone
      have hmem : x ∈ (names basicPattern).filter fun x => x ∉ seen := by
        simpa [hx] using names_of_lone hlone
      have hchildren := (collectedAll_of_seen optionalPattern _ hseen (Or.inr hmem : out ∨ _)).2.mpr
        (.inr hmem)
      exact iff_of_true hchildren ⟨VarTree.childrenWellDesignedAt_of_notMem _
        (notMem_writtenEarlyAll optionalPattern hseen) _ _,
        loneWrittenAll_of_seen optionalPattern hseen (.inr hmem)⟩
    · exact childrenWellDesignedAt_collected_iff optionalPattern (by simp [hx, hlone]) .inr

theorem childrenWellDesignedAt_collected_iff (ps : List GraphPattern) {seen : List VarName}
    {out parent : Prop} (hx : x ∉ seen) (hparent : parent → out) :
    VarTree.ChildrenWellDesignedAt (.inl x) out parent (collectedAll seen ps) ↔
      VarTree.ChildrenWellDesignedAt x out parent (writtenEarlyAll seen ps) ∧
        LoneWrittenAll x parent seen ps := by
  match ps with
  | [] => simp [collectedAll, writtenEarlyAll, VarTree.ChildrenWellDesignedAt, LoneWrittenAll]
  | p :: ps =>
    simp only [collectedAll, writtenEarlyAll, VarTree.ChildrenWellDesignedAt, LoneWrittenAll]
    by_cases hlone : x ∈ loneVars p
    · -- it is in all patterns that follow
      have hseen := List.mem_append_right seen hlone
      have hmem : .inl x ∈ (collected seen p).vars := mem_collected_of_lone p hlone
      have hmem' := (mem_collected_iff p hx).mp hmem
      have hnot := notMem_writtenEarlyAll ps hseen
      obtain ⟨hvars, hchildren⟩ := collectedAll_of_seen ps parent hseen (Or.inr hmem : out ∨ _)
      have hearly := VarTree.childrenWellDesignedAt_of_notMem _ hnot
        (out ∨ x ∈ (writtenEarly seen p).vars) parent
      have hlater : ps = [] ∨ parent → LoneWrittenAll x parent (seen ++ loneVars p) ps :=
        loneWrittenAll_of_seen ps hseen
      rw [hchildren, hvars, wellDesignedAt_collected_iff p hx]
      by_cases hend : ps = [] ∨ parent
      · have hout : (out ∨ ps ≠ []) = (out ∨ x ∈ VarTree.varsAll (writtenEarlyAll (seen ++ loneVars p) ps)) := by
          rcases hend with hend | hend
          · simp [hend, writtenEarlyAll, VarTree.varsAll]
          · simp [hparent hend]
        rw [hout]
        exact ⟨fun ⟨hchild, ⟨hwell, hp⟩, _⟩ =>
            ⟨⟨fun _ => hchild hmem, hwell, hearly⟩, fun _ => hend, hp, hlater hend⟩,
          fun ⟨⟨hchild, hwell, _⟩, _, hp, _⟩ => ⟨fun _ => hchild hmem', ⟨hwell, hp⟩, hend⟩⟩
      · exact iff_of_false (fun h => hend h.2.2) fun h => hend (h.2.1 hlone)
    · have hx' : x ∉ seen ++ loneVars p := by simp [hx, hlone]
      rw [mem_collected_iff p hx, mem_collectedAll_iff ps hx', wellDesignedAt_collected_iff p hx,
        childrenWellDesignedAt_collected_iff ps hx' fun h => .inl (hparent h)]
      exact ⟨fun ⟨hchild, ⟨hwell, hp⟩, hrest, hps⟩ =>
          ⟨⟨hchild, hwell, hrest⟩, fun h => absurd h hlone, hp, hps⟩,
        fun ⟨⟨hchild, hwell, hrest⟩, _, hp, hps⟩ => ⟨hchild, ⟨hwell, hp⟩, hrest, hps⟩⟩

end

mutual

theorem mem_written_of_early (p : GraphPattern) {seen : List VarName}
    (hx : x ∈ (writtenEarly seen p).vars) : x ∈ p.written.vars := by
  match p with
  | .node basicPattern optionalPattern =>
    rcases hx with hx | hx
    · exact .inl (List.mem_filter.mp hx).1
    · exact .inr (mem_writtenAll_of_early optionalPattern hx)

theorem mem_writtenAll_of_early (ps : List GraphPattern) {seen : List VarName}
    (hx : x ∈ VarTree.varsAll (writtenEarlyAll seen ps)) : x ∈ VarTree.varsAll (writtenAll ps) := by
  match ps with
  | [] => exact hx
  | p :: ps => exact hx.imp (mem_written_of_early p) (mem_writtenAll_of_early ps)

end

mutual

theorem early_of_written (p : GraphPattern) {seen : List VarName} {out out' : Prop} (hout : out' → out)
    (h : p.written.WellDesignedAt x out) : (writtenEarly seen p).WellDesignedAt x out' := by
  match p with
  | .node basicPattern optionalPattern =>
    by_cases hx : x ∈ seen
    · exact VarTree.wellDesignedAt_of_notMem _ (notMem_writtenEarly _ hx) _
    · have hparent : (x ∈ (names basicPattern).filter fun x => x ∉ seen) = (x ∈ names basicPattern) := by
        simp [hx]
      rw [writtenEarly, VarTree.WellDesignedAt, hparent]
      exact earlyAll_of_written optionalPattern (Or.imp_left hout) h

theorem earlyAll_of_written (ps : List GraphPattern) {seen : List VarName} {out out' parent : Prop}
    (hout : out' → out) (h : VarTree.ChildrenWellDesignedAt x out parent (writtenAll ps)) :
    VarTree.ChildrenWellDesignedAt x out' parent (writtenEarlyAll seen ps) := by
  match ps with
  | [] => exact trivial
  | p :: ps =>
    obtain ⟨hparent, hp, hps⟩ := h
    have hmem : x ∈ (writtenEarly seen p).vars → x ∈ p.written.vars := mem_written_of_early p
    have hmems : x ∈ VarTree.varsAll (writtenEarlyAll (seen ++ loneVars p) ps) →
        x ∈ VarTree.varsAll (writtenAll ps) := mem_writtenAll_of_early ps
    exact ⟨fun hx hothers => hparent (hmem hx) (hothers.imp hout hmems),
      early_of_written p (Or.imp hout hmems) hp, earlyAll_of_written ps (Or.imp hout hmem) hps⟩

end

theorem writtenEarly_wellDesigned (p : GraphPattern) (h : p.written.WellDesigned ∅) :
    (p.writtenEarly []).WellDesigned ∅ :=
  (VarTree.wellDesigned_iff_forall _ _).mpr fun x =>
    early_of_written p id ((VarTree.wellDesigned_iff_forall _ _).mp h x)

/-- The collected variables are well designed when the variables of properties are, the variables
that are written before they stand alone are, and those that stand alone are written where the
visitor adds them next to others. -/
theorem collected_wellDesigned_iff (p : GraphPattern) : (p.collected []).WellDesigned ∅ ↔
    (p.writtenEarly []).WellDesigned ∅ ∧ p.writtenKeys.WellDesigned ∅ ∧ ∀ x, p.LoneWritten x [] := by
  have hnames : ∀ x, (p.collected []).WellDesignedAt (.inl x) False ↔
      (p.writtenEarly []).WellDesignedAt x False ∧ p.LoneWritten x [] :=
    fun x => wellDesignedAt_collected_iff p (by simp) False
  have hkeys : ∀ k, (p.collected []).WellDesignedAt (.inr k) False ↔
      p.writtenKeys.WellDesignedAt k False :=
    fun k => (VarTree.OccursAlike.iff _ (occursAlike_keys p [])).2 False
  simp only [VarTree.wellDesigned_iff_forall, Sum.forall, Set.mem_empty_iff_false, hnames, hkeys,
    forall_and]
  tauto

end GraphPattern

def Element.names : Element → List VarName
  | .var (.named x) => [x]
  | _ => []

def Element.InRange (lo hi : Nat) (e : Element) : Prop :=
  ∀ n, e = .var (.anon n) → lo ≤ n ∧ n < hi

/-- The variables of a contribution: anonymous ones with numbers in a range, at least those of
`inner` and at most those of `outer`. -/
structure Shows (lo hi : Nat) (k : Contribution) (inner outer : Set UserVar) : Prop where
  numbered : ∀ v ∈ k.vars, ∀ n, v.number = some n → lo ≤ n ∧ n < hi
  shown : ∀ u ∈ inner, u.toVar ∈ k.vars ∨ u.toVar ∈ k.possible
  only : ∀ u : UserVar, u.toVar ∈ k.vars ∨ u.toVar ∈ k.possible → u ∈ outer

def users (xs : List VarName) (ks : List (VarName × String)) : Set UserVar :=
  {u | u ∈ xs.map Sum.inl ∨ u ∈ ks.map Sum.inr}

section shows

variable {lo hi lo' hi' c : Nat} {k k' : Contribution} {inner outer inner' outer' : Set UserVar}
  {id e : Element}

theorem Shows.append (h : Shows lo hi k inner outer) (h' : Shows lo hi k' inner' outer') :
    Shows lo hi (k ++ k') (inner ∪ inner') (outer ∪ outer') where
  numbered v hv n hn := by
    rw [Contribution.vars_append, List.mem_append] at hv
    exact hv.elim (fun hv => h.numbered v hv n hn) fun hv => h'.numbered v hv n hn
  shown u hu := by
    rw [Contribution.vars_append, Contribution.possible_append, List.mem_append, List.mem_append]
    rcases hu with hu | hu
    · have := h.shown u hu
      tauto
    · have := h'.shown u hu
      tauto
  only u hu := by
    rw [Contribution.vars_append, Contribution.possible_append, List.mem_append,
      List.mem_append] at hu
    have := h.only u
    have := h'.only u
    rw [Set.mem_union]
    tauto

theorem Shows.mono (h : Shows lo hi k inner outer) (hlo : lo' ≤ lo) (hhi : hi ≤ hi')
    (hinner : inner' ⊆ inner) (houter : outer ⊆ outer') : Shows lo' hi' k inner' outer' where
  numbered v hv n hn := by
    have := h.numbered v hv n hn
    omega
  shown u hu := h.shown u (hinner hu)
  only u hu := houter (h.only u hu)

theorem shows_nothing : Shows lo hi .nothing ∅ ∅ :=
  ⟨by simp [Contribution.nothing], by simp, by simp [Contribution.nothing]⟩

theorem shows_ofElement : Shows lo hi (.ofElement e) ∅ ∅ :=
  ⟨by simp [Contribution.ofElement], by simp, by simp [Contribution.ofElement]⟩

theorem shows_ofBounds {ns : List Nat} : Shows lo hi (.ofBounds ns) ∅ ∅ :=
  ⟨by simp [Contribution.ofBounds], by simp, by simp [Contribution.ofBounds]⟩

theorem shows_ofVars (es : List Element) (h : ∀ e ∈ es, e.InRange lo hi) :
    Shows lo hi (.ofVars (elementVars es)) (users (es.flatMap Element.names) [])
      (users (es.flatMap Element.names) []) := by
  refine ⟨fun v hv n hn => ?_, fun u hu => ?_, fun u hu => ?_⟩
  · simp only [Contribution.ofVars, elementVars, List.mem_map, List.mem_flatMap] at hv
    obtain ⟨x, ⟨e, he, hx⟩, rfl⟩ := hv
    cases e with
    | term t => simp [Element.vars] at hx
    | var y =>
      simp only [Element.vars, List.mem_singleton] at hx
      subst hx
      cases x with
      | named x => cases hn
      | anon m =>
        simp only [Var.number, Option.some.injEq] at hn
        subst hn
        exact h _ he m rfl
  · simp only [users, List.map_nil, List.not_mem_nil, or_false, Set.mem_ofPred_eq, List.mem_map,
      List.mem_flatMap] at hu
    obtain ⟨x, ⟨e, he, hx⟩, rfl⟩ := hu
    left
    simp only [Contribution.ofVars, elementVars, List.mem_map, List.mem_flatMap]
    refine ⟨.named x, ⟨e, he, ?_⟩, rfl⟩
    cases e with
    | term t => simp [Element.names] at hx
    | var y =>
      cases y with
      | anon m => simp [Element.names] at hx
      | named y =>
        simp only [Element.names, List.mem_singleton] at hx
        simp [Element.vars, hx]
  · simp only [Contribution.ofVars, elementVars, List.mem_map, List.mem_flatMap, List.not_mem_nil,
      or_false] at hu
    obtain ⟨x, ⟨e, he, hx⟩, heq⟩ := hu
    cases u with
    | inl y =>
      simp only [UserVar.toVar, Var.element.injEq] at heq
      subst heq
      simp only [users, Set.mem_ofPred_eq, List.mem_map, List.mem_flatMap]
      refine .inl ⟨y, ⟨e, he, ?_⟩, rfl⟩
      cases e with
      | term t => simp [Element.vars] at hx
      | var z =>
        simp only [Element.vars, List.mem_singleton] at hx
        subst hx
        simp [Element.names]
    | inr y => cases heq

theorem shows_ofLabels (h : id.InRange lo hi) (labels : List String) :
    Shows lo hi (.ofLabels id labels) (if labels.isEmpty then ∅ else users id.names [])
      (users id.names []) := by
  induction labels with
  | nil => exact shows_nothing.mono le_rfl le_rfl (by simp) (by simp)
  | cons label labels ih =>
    have hvars : Shows lo hi (.ofVars (elementVars [id])) (users id.names []) (users id.names []) := by
      simpa using shows_ofVars [id] (by simpa using h)
    refine ((shows_ofElement.append hvars).append ih).mono le_rfl le_rfl ?_ ?_
    · simp
    · simp

theorem shows_ofProperty (h : id.InRange lo hi) (p : Property) :
    Shows lo hi (.ofProperty id p) (users id.names (id.names.map fun x => (x, p.key)))
      (users id.names (id.names.map fun x => (x, p.key))) := by
  match id with
  | .term t =>
    refine ⟨?_, by simp [users, Element.names], ?_⟩
    · simp [Contribution.ofProperty, propertyVars, Element.vars]
    · simp [Contribution.ofProperty, propertyVars, Element.vars]
  | .var (.named x) =>
    refine ⟨fun v hv n hn => ?_, fun u hu => ?_, fun u hu => ?_⟩
    · simp only [Contribution.ofProperty, propertyVars, Element.vars, List.flatMap_cons,
        List.flatMap_nil, List.append_nil, List.mem_cons, List.not_mem_nil, or_false] at hv
      rcases hv with rfl | rfl <;> cases hn
    · left
      simp only [users, Element.names, List.map_cons, List.map_nil, List.mem_singleton,
        Set.mem_ofPred_eq] at hu
      rcases hu with rfl | rfl <;>
        simp [Contribution.ofProperty, propertyVars, Element.vars, UserVar.toVar]
    · simp only [Contribution.ofProperty, propertyVars, Element.vars, List.flatMap_cons,
        List.flatMap_nil, List.append_nil, List.mem_cons, List.not_mem_nil, or_false] at hu
      rcases hu with hu | hu
      · exact .inl (by simp [Element.names, UserVar.eq_of_toVar (w := .inl x) hu])
      · exact .inr (by simp [Element.names, UserVar.eq_of_toVar (w := .inr (x, p.key)) hu])
  | .var (.anon m) =>
    refine ⟨fun v hv n hn => ?_, by simp [users, Element.names], fun u hu => ?_⟩
    · simp only [Contribution.ofProperty, propertyVars, Element.vars, List.flatMap_cons,
        List.flatMap_nil, List.append_nil, List.mem_cons, List.not_mem_nil, or_false] at hv
      have hm : n = m := by
        rcases hv with rfl | rfl <;> exact (Option.some.inj hn).symm
      exact hm ▸ h m rfl
    · simp only [Contribution.ofProperty, propertyVars, Element.vars, List.flatMap_cons,
        List.flatMap_nil, List.append_nil, List.mem_cons, List.not_mem_nil, or_false] at hu
      have hnone := u.number_toVar
      rcases hu with hu | hu <;> rw [hu] at hnone <;> cases hnone

def elementKeys (id : Element) (ps : List Property) : List (VarName × String) :=
  id.names.flatMap fun x => ps.map fun p => (x, p.key)

theorem mem_users {xs : List VarName} {ks : List (VarName × String)} {u : UserVar} :
    u ∈ users xs ks ↔ u ∈ xs.map Sum.inl ∨ u ∈ ks.map Sum.inr := Iff.rfl

theorem mem_elementKeys_cons {p : Property} {ps : List Property} {u : UserVar} :
    u ∈ (elementKeys id (p :: ps)).map Sum.inr ↔
      u ∈ (id.names.map fun x => (x, p.key)).map Sum.inr ∨
        u ∈ (elementKeys id ps).map Sum.inr := by
  match id with
  | .term t => simp [elementKeys, Element.names]
  | .var (.anon m) => simp [elementKeys, Element.names]
  | .var (.named x) => simp [elementKeys, Element.names]

theorem shows_ofProperties (h : id.InRange lo hi) (ps : List Property) :
    Shows lo hi (.ofProperties id ps)
      (if ps.isEmpty then ∅ else users id.names (elementKeys id ps))
      (users id.names (elementKeys id ps)) := by
  induction ps with
  | nil => exact shows_nothing.mono le_rfl le_rfl (by simp) (by simp)
  | cons p ps ih =>
    have hone := (shows_ofElement (e := id)).append
      ((shows_ofElement (e := .term p.value)).append (shows_ofProperty h p))
    refine (hone.append ih).mono le_rfl le_rfl ?_ ?_
    · intro u hu
      rw [if_neg (by simp), mem_users, mem_elementKeys_cons] at hu
      simp only [Set.empty_union, Set.mem_union, mem_users]
      cases ps with
      | nil =>
        have hnil : u ∉ (elementKeys id []).map Sum.inr := by simp [elementKeys]
        tauto
      | cons q qs =>
        rw [if_neg (by simp), mem_users]
        tauto
    · intro u hu
      simp only [Set.empty_union, Set.mem_union, mem_users] at hu
      rw [mem_users, mem_elementKeys_cons]
      tauto

theorem inRange_varOf {name : Option VarName} (hlo : lo ≤ c) (hhi : nextVar c name ≤ hi) :
    Element.InRange lo hi (.var (varOf c name)) := by
  intro n hn
  cases name with
  | some x => cases hn
  | none =>
    cases hn
    exact ⟨hlo, hhi⟩

theorem le_nextVar {α : Type} (x : Option α) : c ≤ nextVar c x := by
  cases x <;> simp [nextVar]

theorem Node.le_next (n : Node) : c ≤ n.next c := by
  cases n with
  | fixed t => exact le_rfl
  | var name types properties => exact le_nextVar name

theorem Node.inRange_element (n : Node) (hlo : lo ≤ c) (hhi : n.next c ≤ hi) :
    (n.element c).InRange lo hi := by
  cases n with
  | fixed t =>
    intro m hm
    cases hm
  | var name types properties => exact inRange_varOf hlo hhi

theorem Node.names_element (n : Node) : (n.element c).names = n.names := by
  match n with
  | .fixed t => rfl
  | .var (some x) types properties => rfl
  | .var none types properties => rfl

theorem Node.elementKeys_eq (c : Nat) (name : Option VarName) (types : List String)
    (properties : List Property) :
    elementKeys (.var (varOf c name)) properties = (Node.var name types properties).keys := by
  cases name with
  | some x => simp [elementKeys, varOf, Element.names, Node.keys]
  | none => rfl

theorem Node.shows (n : Node) : Shows c (n.next c) (n.contribution false c) (users [] n.keys)
    (users n.names n.keys) := by
  cases n with
  | fixed t => exact shows_nothing.mono le_rfl le_rfl (by simp [users, Node.keys]) (by simp)
  | var name types properties =>
    have hrange : Element.InRange c ((Node.var name types properties).next c)
        (.var (varOf c name)) := inRange_varOf le_rfl le_rfl
    have hnames : (Element.var (varOf c name)).names = (Node.var name types properties).names :=
      Node.names_element (c := c) (.var name types properties)
    have hkeys := Node.elementKeys_eq c name types properties
    have hlabels := shows_ofLabels hrange types
    have hproperties := shows_ofProperties hrange properties
    rw [hnames] at hlabels
    rw [hnames, hkeys] at hproperties
    simp only [Node.contribution, Bool.false_eq_true, false_and, if_false,
      Contribution.nothing_append]
    refine (hlabels.append hproperties).mono le_rfl le_rfl ?_ ?_
    · intro u hu
      cases properties with
      | nil => cases name <;> simp [users, Node.keys] at hu
      | cons p ps =>
        rw [if_neg (c := (p :: ps).isEmpty = true) (by simp)]
        exact .inr (.inr (hu.resolve_left (by simp)))
    · intro u hu
      simp only [Set.mem_union, mem_users] at hu ⊢
      simp only [List.map_nil, List.not_mem_nil, or_false] at hu
      tauto

theorem Node.shows_isolated (n : Node) : Shows c (n.next c) (n.contribution true c)
    (users n.names n.keys) (users n.names n.keys) := by
  cases n with
  | fixed t =>
    refine ((shows_ofElement (e := .term t)).append (shows_ofVars [] (by simp))).mono
      le_rfl le_rfl ?_ ?_
    · simp [users, Node.keys, Node.names]
    · simp [users]
  | var name types properties =>
    have hrange : Element.InRange c ((Node.var name types properties).next c)
        (.var (varOf c name)) := inRange_varOf le_rfl le_rfl
    have hnames : (Element.var (varOf c name)).names = (Node.var name types properties).names :=
      Node.names_element (c := c) (.var name types properties)
    have hkeys := Node.elementKeys_eq c name types properties
    have hlabels := shows_ofLabels hrange types
    have hproperties := shows_ofProperties hrange properties
    rw [hnames] at hlabels
    rw [hnames, hkeys] at hproperties
    simp only [Node.contribution, true_and]
    by_cases hlone : types.isEmpty ∧ properties.isEmpty
    · rw [if_pos hlone]
      obtain ⟨htypes, hprops⟩ := hlone
      rw [List.isEmpty_iff] at htypes hprops
      subst htypes hprops
      have hisolated : Shows c ((Node.var name [] []).next c)
          (.ofIsolated name (varOf c name)) (users (Node.var name [] []).names [])
          (users (Node.var name [] []).names []) := by
        cases name with
        | none =>
          exact shows_ofVars [.var (varOf c none)] (List.forall_mem_singleton.mpr hrange)
        | some x =>
          refine ⟨by simp [Contribution.ofIsolated], fun u hu => ?_, fun u hu => ?_⟩
          · right
            simp only [users, Node.names, List.map_cons, List.map_nil, List.mem_singleton,
              List.not_mem_nil, or_false, Set.mem_ofPred_eq] at hu
            simp [Contribution.ofIsolated, hu, UserVar.toVar]
          · simp only [Contribution.ofIsolated, List.not_mem_nil, List.mem_singleton,
              false_or] at hu
            exact .inl (by simp [Node.names, UserVar.eq_of_toVar (w := .inl x) hu])
      have hnone : (Node.var name [] []).keys = [] := by cases name <;> rfl
      rw [hnone]
      exact (hisolated.append (shows_nothing.append shows_nothing)).mono le_rfl le_rfl
        (by simp) (by simp)
    · rw [if_neg hlone, Contribution.nothing_append]
      refine (hlabels.append hproperties).mono le_rfl le_rfl ?_ ?_
      · intro u hu
        rw [Set.mem_union]
        by_cases hprops : properties.isEmpty
        · have htypes : ¬ types.isEmpty := fun h => hlone ⟨h, hprops⟩
          rw [List.isEmpty_iff] at hprops
          subst hprops
          rw [if_neg htypes]
          refine .inl (hu.imp_right fun hu => ?_)
          cases name <;> simp [Node.keys] at hu
        · rw [if_neg hprops]
          exact .inr hu
      · intro u hu
        simp only [Set.mem_union, mem_users] at hu ⊢
        simp only [List.map_nil, List.not_mem_nil, or_false] at hu
        tauto

theorem shows_ofEdge {source target type edge : Element} (hsource : source.InRange lo hi)
    (htarget : target.InRange lo hi) (htype : type.InRange lo hi) (hedge : edge.InRange lo hi) :
    Shows lo hi (.ofEdge source target type edge)
      (users ([source, target, type, edge].flatMap Element.names) [])
      (users ([source, target, type, edge].flatMap Element.names) []) := by
  have hall : ∀ e ∈ [source, target, type, edge], e.InRange lo hi := by
    simp [hsource, htarget, htype, hedge]
  refine (shows_ofElement.append (shows_ofElement.append (shows_ofElement.append
    (shows_ofElement.append (shows_ofVars _ hall))))).mono le_rfl le_rfl ?_ ?_
  · simp only [Set.empty_union]
    exact subset_rfl
  · simp only [Set.empty_union]
    exact subset_rfl

theorem shows_ofPath {source target : Element} {x : ElementVar} (hsource : source.InRange lo hi)
    (htarget : target.InRange lo hi) (hx : Element.InRange lo hi (.var x)) :
    Shows lo hi (.ofPath x source target)
      (users ([source, target, .var x].flatMap Element.names) [])
      (users ([source, target, .var x].flatMap Element.names) []) := by
  have hall : ∀ e ∈ [source, target, .var x], e.InRange lo hi := by
    simp [hsource, htarget, hx]
  refine (shows_ofElement.append (shows_ofElement.append (shows_ofVars _ hall))).mono le_rfl le_rfl
    ?_ ?_
  · simp only [Set.empty_union]
    exact subset_rfl
  · simp only [Set.empty_union]
    exact subset_rfl

theorem EdgeId.inRange (id : Option EdgeId) (hlo : lo ≤ c) (hhi : nextVar c id ≤ hi) :
    (EdgeId.element c id).InRange lo hi := by
  intro n hn
  match id with
  | some (.var x) => cases hn
  | some (.id m) => cases hn
  | none =>
    cases hn
    exact ⟨hlo, hhi⟩

theorem EdgeType.inRange (type : Option EdgeType) (hlo : lo ≤ c) (hhi : nextVar c type ≤ hi) :
    (EdgeType.element c type).InRange lo hi := by
  intro n hn
  match type with
  | some (.var x) => cases hn
  | some (.type name) => cases hn
  | none =>
    cases hn
    exact ⟨hlo, hhi⟩

theorem EdgeId.names_element (id : Option EdgeId) :
    (EdgeId.element c id).names = EdgeId.names id := by
  match id with
  | some (.var x) => rfl
  | some (.id m) => rfl
  | none => rfl

theorem EdgeType.names_element (type : Option EdgeType) :
    (EdgeType.element c type).names = EdgeType.names type := by
  match type with
  | some (.var x) => rfl
  | some (.type name) => rfl
  | none => rfl

theorem Link.le_next (link : Link) : c ≤ link.next c := by
  cases link with
  | edge right inside => exact (le_nextVar _).trans (le_nextVar _)
  | path right type var alternatives => exact le_nextVar var

def Link.users (saved last : Element) (link : Link) : Set UserVar :=
  Parser.users (saved.names ++ last.names ++ link.names) link.keys

theorem Link.shows (link : Link) {saved last : Element} (hlo : lo ≤ c)
    (hsaved : saved.InRange lo (link.next c)) (hlast : last.InRange lo (link.next c)) :
    Shows lo (link.next c) (link.contribution saved last c) (link.users saved last)
      (link.users saved last) := by
  cases link with
  | edge right inside =>
    have hid := EdgeId.inRange (insideOf inside).id hlo (le_nextVar (insideOf inside).type)
    have htype := EdgeType.inRange (insideOf inside).type
      (hlo.trans (le_nextVar (insideOf inside).id)) (le_refl _)
    have hproperties := shows_ofProperties hid (insideOf inside).properties
    have hkeys : elementKeys (EdgeId.element c (insideOf inside).id) (insideOf inside).properties =
        (Link.edge right inside).keys := by
      simp only [elementKeys, EdgeId.names_element, Link.keys]
    rw [hkeys, EdgeId.names_element] at hproperties
    have hempty : (insideOf inside).properties.isEmpty → (Link.edge right inside).keys = [] := by
      intro h
      rw [List.isEmpty_iff] at h
      simp [Link.keys, h]
    -- either direction has the same variables
    have hedge : ∀ source target : Element, source.InRange lo ((Link.edge right inside).next c) →
        target.InRange lo ((Link.edge right inside).next c) →
        (∀ x, x ∈ source.names ++ target.names ↔ x ∈ saved.names ++ last.names) →
        Shows lo ((Link.edge right inside).next c)
          (.ofProperties (EdgeId.element c (insideOf inside).id) (insideOf inside).properties ++
            .ofEdge source target (EdgeType.element (nextVar c (insideOf inside).id)
              (insideOf inside).type) (EdgeId.element c (insideOf inside).id))
          ((Link.edge right inside).users saved last)
          ((Link.edge right inside).users saved last) := by
      intro source target hsource htarget hends
      have hmem : ∀ u, u ∈ Parser.users ([source, target,
          EdgeType.element (nextVar c (insideOf inside).id) (insideOf inside).type,
          EdgeId.element c (insideOf inside).id].flatMap Element.names) [] ↔
          u ∈ Parser.users (saved.names ++ last.names ++ (Link.edge right inside).names) [] := by
        intro u
        simp only [mem_users, List.map_nil, List.not_mem_nil, or_false, List.mem_map,
          List.flatMap_cons, List.flatMap_nil, List.append_nil, EdgeId.names_element,
          EdgeType.names_element, Link.names]
        refine exists_congr fun x => and_congr_left fun _ => ?_
        have := hends x
        simp only [List.mem_append] at this ⊢
        rw [← or_assoc, this]
        exact or_congr_right or_comm
      refine (hproperties.append (shows_ofEdge hsource htarget htype hid)).mono le_rfl le_rfl ?_ ?_
      · intro u hu
        rw [Set.mem_union, hmem]
        rcases hu with hu | hu
        · exact .inr (.inl hu)
        · left
          by_cases h : (insideOf inside).properties.isEmpty
          · simp [hempty h] at hu
          · rw [if_neg h]
            exact .inr hu
      · intro u hu
        rw [Set.mem_union, hmem] at hu
        rcases hu with hu | hu
        · refine hu.imp_left fun hu => ?_
          simp only [Link.names, List.map_append, List.mem_append]
          exact .inr (.inl hu)
        · exact .inl (hu.resolve_right (by simp))
    simp only [Link.contribution]
    split
    · exact hedge saved last hsaved hlast fun x => Iff.rfl
    · exact hedge last saved hlast hsaved fun x => by
        simp only [List.mem_append, or_comm]
  | path right type var alternatives =>
    have hx : Element.InRange lo (nextVar c var) (.var (varOf c var)) := inRange_varOf hlo le_rfl
    have hnames : (Element.var (varOf c var)).names = var.toList := by cases var <;> rfl
    have hpath : ∀ source target : Element, source.InRange lo (nextVar c var) →
        target.InRange lo (nextVar c var) →
        (∀ x, x ∈ source.names ++ target.names ↔ x ∈ saved.names ++ last.names) →
        Shows lo (nextVar c var) (.ofBounds (boundsOfSequences alternatives) ++
            .ofPath (varOf c var) source target)
          ((Link.path right type var alternatives).users saved last)
          ((Link.path right type var alternatives).users saved last) := by
      intro source target hsource htarget hends
      have hmem : ∀ u, u ∈ Parser.users ([source, target,
          Element.var (varOf c var)].flatMap Element.names) [] ↔
          u ∈ (Link.path right type var alternatives).users saved last := by
        intro u
        simp only [mem_users, List.map_nil, List.not_mem_nil, or_false, List.mem_map, Link.users,
          List.flatMap_cons, List.flatMap_nil, List.append_nil, hnames, Link.names, Link.keys]
        refine exists_congr fun x => and_congr_left fun _ => ?_
        have := hends x
        simp only [List.mem_append] at this ⊢
        rw [← or_assoc, this]
      refine (shows_ofBounds.append (shows_ofPath hsource htarget hx)).mono le_rfl le_rfl ?_ ?_
      · exact fun u hu => .inr ((hmem u).mpr hu)
      · intro u hu
        exact (hmem u).mp (hu.resolve_left (by simp))
    simp only [Link.contribution]
    split
    · exact hpath saved last hsaved hlast fun x => Iff.rfl
    · exact hpath last saved hlast hsaved fun x => by
        simp only [List.mem_append, or_comm]

theorem le_nextLinks (rest : List (Link × Node)) : ∀ c : Nat, c ≤ nextLinks c rest := by
  induction rest with
  | nil => exact fun _ => le_rfl
  | cons row rest ih =>
    intro c
    exact ((row.2.le_next).trans row.1.le_next).trans (ih _)

theorem Element.InRange.mono {lo' hi' : Nat} (h : e.InRange lo hi) (hlo : lo' ≤ lo)
    (hhi : hi ≤ hi') : e.InRange lo' hi' := by
  intro n hn
  have := h n hn
  omega

theorem shows_links (rest : List (Link × Node)) : ∀ (saved : Element) (c : Nat), lo ≤ c →
    saved.InRange lo c → Shows lo (nextLinks c rest) (linksContribution saved c rest)
      (users (if rest.isEmpty then [] else saved.names ++ linksNames rest) (linksKeys rest))
      (users (saved.names ++ linksNames rest) (linksKeys rest)) := by
  induction rest with
  | nil =>
    intro saved c hlo hsaved
    exact shows_nothing.mono le_rfl le_rfl (by simp [users, linksKeys]) (by simp)
  | cons row rest ih =>
    intro saved c hlo hsaved
    obtain ⟨link, node⟩ := row
    have hnode : c ≤ node.next c := node.le_next
    have hlink : node.next c ≤ link.next (node.next c) := link.le_next
    have hrest := le_nextLinks rest (link.next (node.next c))
    have hlast := node.inRange_element hlo (le_refl (node.next c))
    have h₁ := node.shows (c := c)
    have h₂ := link.shows (c := node.next c) (hlo.trans hnode)
      (hsaved.mono le_rfl (hnode.trans hlink)) (hlast.mono le_rfl hlink)
    have h₃ := ih (node.element c) (link.next (node.next c)) (hlo.trans (hnode.trans hlink))
      (hlast.mono le_rfl hlink)
    rw [linksContribution, nextLinks]
    refine ((h₁.mono hlo (hlink.trans hrest) subset_rfl subset_rfl).append
      ((h₂.mono le_rfl hrest subset_rfl subset_rfl).append h₃)).mono le_rfl le_rfl ?_ ?_
    · intro u hu
      simp only [Set.mem_union, Link.users, node.names_element, mem_users, linksNames, linksKeys,
        List.flatMap_cons, List.map_append, List.mem_append, List.isEmpty_cons,
        Bool.false_eq_true, if_false] at hu ⊢
      cases rest with
      | nil =>
        simp only [List.flatMap_nil, List.map_nil, List.not_mem_nil] at hu
        grind
      | cons row rest =>
        simp only [List.isEmpty_cons, Bool.false_eq_true, if_false, List.map_append,
          List.mem_append]
        grind
    · intro u hu
      simp only [Set.mem_union, Link.users, node.names_element, mem_users, linksNames, linksKeys,
        List.flatMap_cons, List.map_append, List.mem_append] at hu ⊢
      grind

theorem LinearPattern.le_next (p : LinearPattern) : c ≤ p.next c :=
  p.first.le_next.trans (le_nextLinks _ _)

theorem LinearPattern.shows (p : LinearPattern) : Shows c (p.next c) (p.contribution c)
    (users p.names p.keys) (users p.names p.keys) := by
  obtain ⟨first, rest⟩ := p
  have hlinks := shows_links rest (first.element c) (first.next c) first.le_next
    (first.inRange_element le_rfl le_rfl)
  have hnext := le_nextLinks rest (first.next c)
  simp only [LinearPattern.next, LinearPattern.contribution, LinearPattern.names,
    LinearPattern.keys]
  rw [first.names_element] at hlinks
  cases rest with
  | nil =>
    refine (first.shows_isolated.append hlinks).mono le_rfl le_rfl ?_ ?_
    · simp [linksNames, linksKeys]
    · intro u hu
      simp only [Set.mem_union, mem_users, List.map_append, List.mem_append] at hu ⊢
      tauto
  | cons row rest =>
    simp only [List.isEmpty_cons, Bool.false_eq_true, if_false] at hlinks ⊢
    refine ((first.shows.mono le_rfl hnext subset_rfl subset_rfl).append hlinks).mono
      le_rfl le_rfl ?_ ?_
    · intro u hu
      simp only [Set.mem_union, mem_users, List.map_append, List.mem_append] at hu ⊢
      tauto
    · intro u hu
      simp only [Set.mem_union, mem_users, List.map_append, List.mem_append] at hu ⊢
      tauto

theorem le_nextBasic (ps : List LinearPattern) : ∀ c : Nat, c ≤ nextBasic c ps := by
  induction ps with
  | nil => exact fun _ => le_rfl
  | cons p ps ih => exact fun c => p.le_next.trans (ih _)

theorem shows_basic (ps : List LinearPattern) : ∀ c : Nat,
    Shows c (nextBasic c ps) (basicContribution c ps) (users (names ps) (keys ps))
      (users (names ps) (keys ps)) := by
  induction ps with
  | nil => exact fun _ => shows_nothing.mono le_rfl le_rfl (by simp [users, names, keys]) (by simp)
  | cons p ps ih =>
    intro c
    refine ((p.shows.mono le_rfl (le_nextBasic ps _) subset_rfl subset_rfl).append
      ((ih (p.next c)).mono p.le_next le_rfl subset_rfl subset_rfl)).mono le_rfl le_rfl ?_ ?_
    · intro u hu
      simp only [Set.mem_union, mem_users, names, keys, List.flatMap_cons, List.map_append,
        List.mem_append] at hu ⊢
      tauto
    · intro u hu
      simp only [Set.mem_union, mem_users, names, keys, List.flatMap_cons, List.map_append,
        List.mem_append] at hu ⊢
      tauto

end shows

section lone

variable {c : Nat}

theorem possible_ofLabels (id : Element) (labels : List String) :
    (Contribution.ofLabels id labels).possible = [] := by
  induction labels with
  | nil => rfl
  | cons label labels ih => exact ih

theorem possible_ofProperties (id : Element) (ps : List Property) :
    (Contribution.ofProperties id ps).possible = [] := by
  induction ps with
  | nil => rfl
  | cons p ps ih => exact ih

theorem Node.possible_contribution (n : Node) : (n.contribution false c).possible = [] := by
  cases n with
  | fixed t => rfl
  | var name types properties =>
    simp [Node.contribution, possible_ofLabels, possible_ofProperties]

theorem Link.possible_contribution (link : Link) (saved last : Element) :
    (link.contribution saved last c).possible = [] := by
  cases link with
  | edge right inside =>
    simp only [Link.contribution, Contribution.possible_append, possible_ofProperties]
    split <;> rfl
  | path right type var alternatives =>
    simp only [Link.contribution, Contribution.possible_append]
    split <;> rfl

theorem possible_links (rest : List (Link × Node)) : ∀ (saved : Element) (c : Nat),
    (linksContribution saved c rest).possible = [] := by
  induction rest with
  | nil => exact fun _ _ => rfl
  | cons row rest ih =>
    intro saved c
    simp [linksContribution, Node.possible_contribution, Link.possible_contribution, ih]

theorem LinearPattern.possible_contribution (p : LinearPattern) :
    (p.contribution c).possible = p.lone.map fun x => .element (.named x) := by
  obtain ⟨first, rest⟩ := p
  simp only [LinearPattern.contribution, Contribution.possible_append, possible_links,
    List.append_nil]
  cases rest with
  | cons row rest =>
    simp [LinearPattern.lone, Node.possible_contribution]
  | nil =>
    match first with
    | .fixed t => rfl
    | .var (some x) [] [] => rfl
    | .var none [] [] => rfl
    | .var name (type :: types) properties =>
      simp [LinearPattern.lone, Node.contribution, possible_ofLabels, possible_ofProperties]
    | .var name [] (p :: ps) =>
      simp [LinearPattern.lone, Node.contribution, possible_ofLabels, possible_ofProperties]

theorem possible_basic (ps : List LinearPattern) : ∀ c : Nat,
    (basicContribution c ps).possible = (lone ps).map fun x => .element (.named x) := by
  induction ps with
  | nil => exact fun _ => rfl
  | cons p ps ih =>
    intro c
    simp [basicContribution, LinearPattern.possible_contribution, ih, lone]

end lone

mutual

def Op.varTree {R : Type} : Op R → VarTree Var
  | .basic op => .node op.vars []
  | .optional op optionals => .node op.vars (varTrees optionals)

def varTrees {R : Type} : List (Op R) → List (VarTree Var)
  | [] => []
  | op :: ops => op.varTree :: varTrees ops

end

section visitor

variable {R : Type} {stof : String → Option R}

theorem checkBasic_eq {parentVars globalVars : List Var} {op : OpBasicGraphPattern R} :
    checkBasic parentVars globalVars op = VarTree.checkVars parentVars globalVars op.vars := rfl

mutual

theorem checkWellDesigned_eq (parentVars globalVars : List Var) (op : Op R) :
    checkWellDesigned parentVars globalVars op = op.varTree.check parentVars globalVars := by
  match op with
  | .basic op =>
    rw [checkWellDesigned, Op.varTree, VarTree.check, checkBasic_eq]
    cases VarTree.checkVars parentVars globalVars op.vars <;> rfl
  | .optional op optionals =>
    rw [checkWellDesigned, Op.varTree, VarTree.check, checkBasic_eq]
    cases VarTree.checkVars parentVars globalVars op.vars with
    | none => rfl
    | some globalVars => exact checkOptionals_eq op.vars globalVars optionals

theorem checkOptionals_eq (parentVars globalVars : List Var) (ops : List (Op R)) :
    checkOptionals parentVars globalVars ops =
      VarTree.checkAll parentVars globalVars (varTrees ops) := by
  match ops with
  | [] => rfl
  | op :: ops =>
    rw [checkOptionals, varTrees, VarTree.checkAll, checkWellDesigned_eq]
    cases op.varTree.check parentVars globalVars with
    | none => rfl
    | some globalVars => exact checkOptionals_eq parentVars globalVars ops

end

variable [DecidableEq R]

theorem mem_vars_foldl (xs : List Var) : ∀ (op : OpBasicGraphPattern R) (v : Var),
    v ∈ (xs.foldl OpBasicGraphPattern.tryAddPossibleIsolatedVar op).vars ↔ v ∈ op.vars ∨ v ∈ xs := by
  induction xs with
  | nil => simp
  | cons x xs ih =>
    intro op v
    have hone : v ∈ (op.tryAddPossibleIsolatedVar x).vars ↔ v ∈ op.vars ∨ v = x := by
      unfold OpBasicGraphPattern.tryAddPossibleIsolatedVar
      split
      · next h => exact (or_iff_left_of_imp fun hv => hv ▸ h).symm
      · rw [← List.mem_singleton]
        exact mem_insertVars
    rw [List.foldl_cons, ih, hone, List.mem_cons, or_assoc]

def Remembers (s : QueryVisitor R) (seen : List VarName) : Prop :=
  ∀ v, v ∈ s.possibleIsolatedVars ↔ ∃ x ∈ seen, v = .element (.named x)

theorem visitBasicPattern_ok {ps : List LinearPattern} {s : QueryVisitor R} {seen : List VarName}
    (hseen : Remembers s seen) (h : (basicContribution s.anonVarCounter ps).Fits stof []) :
    ∃ op s', QueryVisitor.visitBasicPattern stof ps s = .ok (op, s') ∧
      s'.anonVarCounter = nextBasic s.anonVarCounter ps ∧ Remembers s' (seen ++ lone ps) ∧
      ∀ v, v ∈ op.vars ↔ v ∈ (basicContribution s.anonVarCounter ps).vars ∨
        v ∈ s'.possibleIsolatedVars := by
  obtain ⟨s', hs', hcounter, -, hadds, hpossible⟩ :=
    (meets_visitLinearPatterns (R := R) ps s.anonVarCounter).ok
      { s with currentBasicGraphPattern := .empty } rfl
      ⟨by simp [OpBasicGraphPattern.empty], by simp [OpBasicGraphPattern.empty]⟩ h
  refine ⟨s'.possibleIsolatedVars.foldl .tryAddPossibleIsolatedVar s'.currentBasicGraphPattern,
    s', by simp only [QueryVisitor.visitBasicPattern, hs'], hcounter, fun v => ?_, fun v => ?_⟩
  · rw [hpossible, hseen, possible_basic]
    simp only [List.mem_append, List.mem_map, or_and_right, exists_or]
    refine or_congr_right (exists_congr fun x => and_congr_right fun _ => eq_comm)
  · rw [mem_vars_foldl, hadds.vars]
    simp [OpBasicGraphPattern.empty]

theorem visitBasicPattern_error {ps : List LinearPattern} {s : QueryVisitor R}
    (h : ¬ (basicContribution s.anonVarCounter ps).Fits stof []) :
    ∃ e, QueryVisitor.visitBasicPattern stof ps s = .error e := by
  obtain ⟨e, he⟩ := (meets_visitLinearPatterns (R := R) ps s.anonVarCounter).error
    { s with currentBasicGraphPattern := .empty } rfl
    ⟨by simp [OpBasicGraphPattern.empty], by simp [OpBasicGraphPattern.empty]⟩ h
  exact ⟨e, by simp only [QueryVisitor.visitBasicPattern, he]⟩

theorem vars_of_visit {ps : List LinearPattern} {c : Nat} {seen : List VarName}
    {possible vars : List Var}
    (hpossible : ∀ v, v ∈ possible ↔ ∃ x ∈ seen ++ lone ps, v = .element (.named x))
    (hvars : ∀ v, v ∈ vars ↔ v ∈ (basicContribution c ps).vars ∨ v ∈ possible) :
    (∀ v, v.number = none → (v ∈ vars ↔
      ∃ u ∈ GraphPattern.collectedVars (seen ++ lone ps) ps, u.toVar = v)) ∧
    ∀ v ∈ vars, ∀ n, v.number = some n → c ≤ n ∧ n < nextBasic c ps := by
  have hshows := shows_basic ps c
  constructor
  · intro v hv
    obtain ⟨u, rfl⟩ := exists_toVar hv
    have hmem : (∃ w ∈ GraphPattern.collectedVars (seen ++ lone ps) ps, w.toVar = u.toVar) ↔
        u ∈ GraphPattern.collectedVars (seen ++ lone ps) ps :=
      ⟨fun ⟨w, hw, heq⟩ => UserVar.toVar_injective heq ▸ hw, fun h => ⟨u, h, rfl⟩⟩
    have hseen : u.toVar ∈ possible ↔ u ∈ (seen ++ lone ps).map Sum.inl := by
      rw [hpossible, List.mem_map]
      refine exists_congr fun x => and_congr_right fun _ => ?_
      exact ⟨fun h => (UserVar.eq_of_toVar (w := .inl x) h).symm, fun h => h ▸ rfl⟩
    rw [hmem, hvars, GraphPattern.collectedVars, List.mem_append, List.mem_append, ← hseen]
    constructor
    · intro h
      rcases h with h | h
      · exact .inl (hshows.only u (.inl h))
      · exact .inr h
    · intro h
      rcases h with h | h
      · rcases hshows.shown u h with h | h
        · exact .inl h
        · -- a lone variable of this pattern is remembered
          rw [possible_basic, List.mem_map] at h
          obtain ⟨x, hx, heq⟩ := h
          exact .inr ((hpossible _).mpr ⟨x, List.mem_append_right _ hx, heq.symm⟩)
      · exact .inr h
  · intro v hv n hn
    rcases (hvars v).mp hv with hv | hv
    · exact hshows.numbered v hv n hn
    · obtain ⟨x, -, rfl⟩ := (hpossible v).mp hv
      cases hn

structure Visits (stof : String → Option R) (p : GraphPattern) (seen : List VarName)
    (s : QueryVisitor R) : Prop where
  ok : p.Readable stof s.anonVarCounter → ∃ op s', visitGraphPattern stof p s = .ok (op, s') ∧
    s'.anonVarCounter = p.next s.anonVarCounter ∧ Remembers s' (seen ++ p.loneVars) ∧
    VarTree.Adds UserVar.toVar Var.number s.anonVarCounter (p.collected seen) op.varTree
      s'.anonVarCounter
  error : ¬ p.Readable stof s.anonVarCounter → ∃ e, visitGraphPattern stof p s = .error e

mutual

theorem visits (p : GraphPattern) (seen : List VarName) (s : QueryVisitor R)
    (hseen : Remembers s seen) : Visits stof p seen s := by
  match p with
  | .node basicPattern optionalPattern =>
    have heq : visitGraphPattern stof (.node basicPattern optionalPattern) s =
        (QueryVisitor.visitBasicPattern stof basicPattern s >>= fun r =>
          visitOptionalPatterns stof optionalPattern r.2 >>= fun r' =>
            .ok (if r'.1.isEmpty then .basic r.1 else .optional r.1 r'.1, r'.2)) := by
      rw [visitGraphPattern]
      rfl
    by_cases hfits : (basicContribution s.anonVarCounter basicPattern).Fits stof []
    · obtain ⟨op, s', hvisit, hcounter, hseen', hvars⟩ := visitBasicPattern_ok hseen hfits
      obtain ⟨hok, herror⟩ := visits_optional optionalPattern (seen ++ lone basicPattern) s' hseen'
      obtain ⟨hplain, hnumbered⟩ := vars_of_visit hseen' hvars
      rw [hvisit] at heq
      rw [hcounter] at hok herror
      constructor
      · intro hread
        obtain ⟨ops, s'', hvisits, hcounter', hseen'', hadds⟩ := hok hread.2
        refine ⟨if ops.isEmpty then .basic op else .optional op ops, s'', ?_, hcounter', ?_, ?_⟩
        · rw [heq]
          show (visitOptionalPatterns stof optionalPattern s' >>= _) = _
          rw [hvisits]
          rfl
        · rw [GraphPattern.loneVars, ← List.append_assoc]
          exact hseen''
        · have htree : (if ops.isEmpty then Op.basic op else .optional op ops).varTree =
              .node op.vars (varTrees ops) := by
            cases ops <;> rfl
          rw [htree, GraphPattern.collected, VarTree.Adds]
          exact ⟨_, le_nextBasic _ _, fun u _ => u.number_toVar, hplain, hnumbered, hadds⟩
      · intro hread
        obtain ⟨e, he⟩ := herror fun h => hread ⟨hfits, h⟩
        refine ⟨e, ?_⟩
        rw [heq]
        show (visitOptionalPatterns stof optionalPattern s' >>= _) = _
        rw [he]
        rfl
    · obtain ⟨e, he⟩ := visitBasicPattern_error hfits
      refine ⟨fun hread => absurd hread.1 hfits, fun _ => ⟨e, ?_⟩⟩
      rw [heq, he]
      rfl

theorem visits_optional (ps : List GraphPattern) (seen : List VarName) (s : QueryVisitor R)
    (hseen : Remembers s seen) :
    (GraphPattern.ReadableAll stof s.anonVarCounter ps →
      ∃ ops s', visitOptionalPatterns stof ps s = .ok (ops, s') ∧
        s'.anonVarCounter = GraphPattern.nextAll s.anonVarCounter ps ∧
        Remembers s' (seen ++ GraphPattern.loneVarsAll ps) ∧
        VarTree.AddsAll UserVar.toVar Var.number s.anonVarCounter
          (GraphPattern.collectedAll seen ps) (varTrees ops) s'.anonVarCounter) ∧
    (¬ GraphPattern.ReadableAll stof s.anonVarCounter ps →
      ∃ e, visitOptionalPatterns stof ps s = .error e) := by
  match ps with
  | [] =>
    refine ⟨fun _ => ⟨[], s, rfl, rfl, ?_, rfl⟩, fun h => absurd trivial h⟩
    rw [GraphPattern.loneVarsAll, List.append_nil]
    exact hseen
  | p :: ps =>
    have heq : visitOptionalPatterns stof (p :: ps) s =
        (visitGraphPattern stof p s >>= fun r => visitOptionalPatterns stof ps r.2 >>= fun r' =>
          .ok (r.1 :: r'.1, r'.2)) := by
      rw [visitOptionalPatterns]
      rfl
    have hp := visits p seen s hseen
    by_cases hread : p.Readable stof s.anonVarCounter
    · obtain ⟨op, s', hvisit, hcounter, hseen', hadds⟩ := hp.ok hread
      obtain ⟨hok, herror⟩ := visits_optional ps (seen ++ p.loneVars) s' hseen'
      rw [hvisit] at heq
      rw [hcounter] at hok herror
      constructor
      · intro hreads
        obtain ⟨ops, s'', hvisits, hcounter', hseen'', hadds'⟩ := hok hreads.2
        refine ⟨op :: ops, s'', ?_, hcounter', ?_, ?_⟩
        · rw [heq]
          show (visitOptionalPatterns stof ps s' >>= _) = _
          rw [hvisits]
          rfl
        · rw [GraphPattern.loneVarsAll, ← List.append_assoc]
          exact hseen''
        · rw [GraphPattern.collectedAll, varTrees, VarTree.AddsAll]
          rw [hcounter] at hadds
          exact ⟨_, hadds, hadds'⟩
      · intro hreads
        obtain ⟨e, he⟩ := herror fun h => hreads ⟨hread, h⟩
        refine ⟨e, ?_⟩
        rw [heq]
        show (visitOptionalPatterns stof ps s' >>= _) = _
        rw [he]
        rfl
    · obtain ⟨e, he⟩ := hp.error hread
      refine ⟨fun hreads => absurd hreads.1 hread, fun _ => ⟨e, ?_⟩⟩
      rw [heq, he]
      rfl

end

/-- The parser rejects a pattern that it can read for the variables that it collects. -/
theorem parse_eq_notWellDefined_iff (p : GraphPattern) : parse stof p = .notWellDefined ↔
    p.Readable stof 0 ∧ ¬ (p.collected []).WellDesigned ∅ := by
  have hvisits : Visits stof p [] .initial := visits p [] _ (by simp [Remembers, QueryVisitor.initial])
  by_cases hread : p.Readable stof 0
  · obtain ⟨op, s', hvisit, -, -, hadds⟩ := hvisits.ok hread
    have hout : VarTree.AddsOutside UserVar.toVar Var.number 0 ∅ ∅ s'.anonVarCounter :=
      ⟨by simp, by simp, by simp⟩
    have hwell := VarTree.wellDesigned_iff_of_adds UserVar.toVar_injective (p.collected []) hadds
      hout
    have hcheck : (checkWellDesigned [] [] op).isSome ↔ (p.collected []).WellDesigned ∅ := by
      rw [checkWellDesigned_eq, VarTree.check_isSome_iff, hwell]
    simp only [parse, hvisit, hread, true_and, ← hcheck]
    split
    · next h => simp [h]
    · next h => simp [h]
  · obtain ⟨e, he⟩ := hvisits.error hread
    simp [parse, he, hread]

end visitor

/-- The parser rejects a pattern as not well designed exactly when it is not. -/
def GraphPattern.RejectedRightly {R : Type} [DecidableEq R] (stof : String → Option R)
    (p : GraphPattern) : Prop :=
  parse stof p = .notWellDefined ↔ ¬ p.written.WellDesigned ∅

end Parser
end MillenniumDB
