import Mathlib.Logic.Function.Iterate
import MillenniumDB.KeyValueHashFind
import Mathlib.Algebra.Group.Nat.Defs

/-!
# The hash join on disk

`HashJoinGrace` goes over the buckets of its two hashes.  A bucket with a small side is read into a
hash in memory; for the others the right bucket is sorted, and for each left tuple the right ones
with its key are read from the first on.  The positions are members, kept from one `next` to the
following one.
-/

namespace MillenniumDB

/-- A hash as it is read: the sizes of its buckets and the tuple at each position of a bucket, what
stands in the pages behind the last tuple included. -/
structure KeyValueBuckets where
  size : Nat → Nat
  tuple : Nat → Nat → KeyValueTuple

inductive Side
  | lhs
  | rhs
deriving DecidableEq

/-- A position that is passed to `get_key`, `get_value` or `get_pair`. -/
structure BucketRead where
  side : Side
  bucket : Nat
  pos : Nat
deriving DecidableEq

/-- What stays the same after `begin`: the variables, the two hashes with their common number of
buckets, and what `sort_bucket` makes of the tuples of a right bucket of some size. -/
structure HashJoinGrace where
  leftVars : List Nat
  commonVars : List Nat
  rightVars : List Nat
  lhsHash : KeyValueBuckets
  rhsHash : KeyValueBuckets
  totalBuckets : Nat
  sortBucket : Nat → (Nat → KeyValueTuple) → Nat → KeyValueTuple

namespace HashJoinGrace

inductive State
  | enumWithSecondHashIter
  | enumWithSecondHash
  | enumWithNestedLoopIter
  | enumWithNestedLoop
  | notEnum
deriving DecidableEq

/-- The members that `next` changes.  `pairs` are the values from `current_pair_iter` up to
`end_range_iter`. -/
structure Members where
  currentState : State
  leftMin : Bool
  smallHash : List KeyValueTuple
  pairs : List (List Nat)
  currentPosLeft : Nat
  currentPosRight : Nat
  currentBucket : Nat
  rhsTuple : Nat → Nat → KeyValueTuple
  parentBinding : Nat → Nat

/-- One turn of the loop of `next`: what it reads, what it leaves, what it returns if it does. -/
structure Turn where
  reads : List BucketRead
  after : Members
  answer : Option Bool

def maxSizeSmallHash : Nat := 4096 * 1024

/-- `parent_binding->add` for the variables and values. -/
def add (vars values : List Nat) (binding : Nat → Nat) : Nat → Nat :=
  (vars.zip values).foldl (fun b assigned => Function.update b assigned.1 assigned.2) binding

section

variable (J : HashJoinGrace) (s : Members)

def lhsSize : Nat := J.lhsHash.size s.currentBucket

def rhsSize : Nat := J.rhsHash.size s.currentBucket

def leftTuple : KeyValueTuple := J.lhsHash.tuple s.currentBucket s.currentPosLeft

def rightTuple : KeyValueTuple := s.rhsTuple s.currentBucket s.currentPosRight

def leftBytes (bucket : Nat) : Nat :=
  J.lhsHash.size bucket * (J.leftVars.length + J.commonVars.length) * 8

def rightBytes (bucket : Nat) : Nat :=
  J.rhsHash.size bucket * (J.rightVars.length + J.commonVars.length) * 8

def readAll (side : Side) (bucket size : Nat) : List BucketRead :=
  (List.range size).map fun pos => ⟨side, bucket, pos⟩

/-- `ENUM_WITH_SECOND_HASH_ITER`. -/
def nextOfRange : Turn :=
  match s.pairs with
  | [] => ⟨[], s, none⟩
  | value :: rest =>
    let vars := if s.leftMin then J.leftVars else J.rightVars
    let s := { s with parentBinding := add vars value s.parentBinding, pairs := rest }
    ⟨[], if rest = [] then { s with currentState := .enumWithSecondHash } else s, some true⟩

/-- `ENUM_WITH_SECOND_HASH`; the loop over the positions takes a turn for each. -/
def nextOfSecondHash : Turn :=
  let pos := if s.leftMin then s.currentPosRight else s.currentPosLeft
  let size := if s.leftMin then J.rhsSize s else J.lhsSize s
  if pos < size then
    let pair := if s.leftMin then rightTuple s else J.leftTuple s
    let s : Members := if s.leftMin then { s with currentPosRight := pos + 1 }
      else { s with currentPosLeft := pos + 1 }
    let range : List (List Nat) :=
      (s.smallHash.filter fun small => small.key = pair.key).map KeyValueTuple.value
    let vars := if s.leftMin then J.rightVars else J.leftVars
    let read := ⟨if s.leftMin then .rhs else .lhs, s.currentBucket, pos⟩
    if range = [] then ⟨[read], { s with pairs := range }, none⟩
    else
      ⟨[read], { s with
        pairs := range
        currentState := .enumWithSecondHashIter
        parentBinding := add J.commonVars pair.key (add vars pair.value s.parentBinding) }, none⟩
  else
    ⟨[], { s with currentState := .notEnum, currentBucket := s.currentBucket + 1 }, none⟩

/-- `ENUM_WITH_NESTED_LOOP_ITER`. -/
def nextOfNestedLoopIter : Turn :=
  let left : BucketRead := ⟨.lhs, s.currentBucket, s.currentPosLeft⟩
  let right : BucketRead := ⟨.rhs, s.currentBucket, s.currentPosRight⟩
  if (J.leftTuple s).key = (rightTuple s).key then
    ⟨[left, right, right], { s with
      parentBinding := add J.rightVars (rightTuple s).value s.parentBinding
      currentPosRight := s.currentPosRight + 1 }, some true⟩
  else  -- not match, means the end of sorted iteration
    ⟨[left, right], { s with
      currentState := .enumWithNestedLoop
      currentPosLeft := s.currentPosLeft + 1 }, none⟩

/-- `ENUM_WITH_NESTED_LOOP`. -/
def nextOfNestedLoop : Turn :=
  if s.currentPosLeft < J.lhsSize s then
    let leftPair := J.leftTuple s
    let found := findFirst leftPair.key (J.rhsSize s) (s.rhsTuple s.currentBucket)
    let reads : List BucketRead := ⟨.lhs, s.currentBucket, s.currentPosLeft⟩ ::
      found.1.map fun pos => ⟨.rhs, s.currentBucket, pos⟩
    match found.2 with
    | some pos =>
      let rightValue := (s.rhsTuple s.currentBucket pos).value
      ⟨reads ++ [⟨.rhs, s.currentBucket, pos⟩], { s with
        parentBinding := add J.rightVars rightValue
          (add J.commonVars leftPair.key (add J.leftVars leftPair.value s.parentBinding))
        currentPosRight := pos + 1
        currentState := .enumWithNestedLoopIter }, some true⟩
    | none => ⟨reads, { s with currentPosLeft := s.currentPosLeft + 1 }, none⟩
  else
    ⟨[], { s with currentBucket := s.currentBucket + 1, currentState := .notEnum }, none⟩

def sorted : Members :=
  { s with
    rhsTuple := Function.update s.rhsTuple s.currentBucket
      (J.sortBucket (J.rhsSize s) (s.rhsTuple s.currentBucket))
    currentState := .enumWithNestedLoop }

/-- `NOT_ENUM`. -/
def nextOfNotEnum : Turn :=
  if s.currentBucket < J.totalBuckets then
    let leftSize := J.leftBytes s.currentBucket
    let rightSize := J.rightBytes s.currentBucket
    let s := { s with
      leftMin := decide (leftSize < rightSize), currentPosLeft := 0, currentPosRight := 0 }
    if leftSize < rightSize then
      if leftSize < maxSizeSmallHash then
        -- Add lhs results to small hash
        ⟨readAll .lhs s.currentBucket (J.lhsSize s), { s with
          smallHash := (List.range (J.lhsSize s)).map (J.lhsHash.tuple s.currentBucket)
          currentPosLeft := J.lhsSize s
          currentState := .enumWithSecondHash }, none⟩
      else ⟨[], J.sorted s, none⟩
    else
      if rightSize < maxSizeSmallHash then
        ⟨readAll .rhs s.currentBucket (J.rhsSize s), { s with
          smallHash := (List.range (J.rhsSize s)).map (s.rhsTuple s.currentBucket)
          currentPosRight := J.rhsSize s
          currentState := .enumWithSecondHash }, none⟩
      else ⟨[], J.sorted s, none⟩
  else ⟨[], s, some false⟩

def turn : Turn :=
  match s.currentState with
  | .enumWithSecondHashIter => J.nextOfRange s
  | .enumWithSecondHash => J.nextOfSecondHash s
  | .enumWithNestedLoopIter => J.nextOfNestedLoopIter s
  | .enumWithNestedLoop => J.nextOfNestedLoop s
  | .notEnum => J.nextOfNotEnum s

/-- The members after `begin`. -/
def begin (binding : Nat → Nat) : Members where
  currentState := .notEnum
  leftMin := false
  smallHash := []
  pairs := []
  currentPosLeft := 0
  currentPosRight := 0
  currentBucket := 0
  rhsTuple := J.rhsHash.tuple
  parentBinding := binding

def afterTurns (binding : Nat → Nat) (n : Nat) : Members :=
  (fun s => (J.turn s).after)^[n] (J.begin binding)

def sizeOf (read : BucketRead) : Nat :=
  match read.side with
  | .lhs => J.lhsHash.size read.bucket
  | .rhs => J.rhsHash.size read.bucket

/-- The smaller side of the bucket is too large for the hash in memory. -/
def NestedLoop (bucket : Nat) : Prop :=
  bucket < J.totalBuckets ∧
    maxSizeSmallHash ≤ min (J.leftBytes bucket) (J.rightBytes bucket)

def sortedTuple (bucket : Nat) : Nat → KeyValueTuple :=
  J.sortBucket (J.rhsHash.size bucket) (J.rhsHash.tuple bucket)

/-- Behind the first tuple that is found for a left key, one with another key follows in the
bucket. -/
def EndsBefore (bucket posLeft : Nat) : Prop :=
  ∀ pos, (findFirst (J.lhsHash.tuple bucket posLeft).key (J.rhsHash.size bucket)
    (J.sortedTuple bucket)).2 = some pos →
    ∃ posRight, pos < posRight ∧ posRight < J.rhsHash.size bucket ∧
      (J.sortedTuple bucket posRight).key ≠ (J.lhsHash.tuple bucket posLeft).key

/-- What the members keep to: buckets that are still to come are as they were, and in the nested
loop the right ones with the key have been read from the first on. -/
structure Inv : Prop where
  later : ∀ b, s.currentBucket < b → s.rhsTuple b = J.rhsHash.tuple b
  notEnum : s.currentState = .notEnum →
    s.rhsTuple s.currentBucket = J.rhsHash.tuple s.currentBucket
  nested : s.currentState = .enumWithNestedLoop ∨ s.currentState = .enumWithNestedLoopIter →
    J.NestedLoop s.currentBucket ∧ s.rhsTuple s.currentBucket = J.sortedTuple s.currentBucket
  iter : s.currentState = .enumWithNestedLoopIter → s.currentPosLeft < J.lhsSize s ∧
    ∃ pos, (findFirst (J.leftTuple s).key (J.rhsSize s) (s.rhsTuple s.currentBucket)).2 = some pos ∧
      pos < s.currentPosRight ∧ ∀ r, pos ≤ r → r < s.currentPosRight →
        (s.rhsTuple s.currentBucket r).key = (J.leftTuple s).key

end

section

variable {J : HashJoinGrace} {s : Members}

theorem inv_begin (J : HashJoinGrace) (binding : Nat → Nat) : J.Inv (J.begin binding) where
  later _ _ := rfl
  notEnum _ := rfl
  nested h := by simp [begin] at h
  iter h := by simp [begin] at h

theorem Inv.second (h : J.Inv s) {t : Members} (htuple : t.rhsTuple = s.rhsTuple)
    (hbucket : t.currentBucket = s.currentBucket)
    (hstate : t.currentState = .enumWithSecondHashIter ∨ t.currentState = .enumWithSecondHash) :
    J.Inv t := by
  refine ⟨fun b hb => ?_, fun h => ?_, fun h => ?_, fun h => ?_⟩
  · rw [htuple]
    exact h.later b (hbucket ▸ hb)
  all_goals
    rcases hstate with hstate | hstate
    all_goals simp [hstate] at h

theorem Inv.nextBucket (h : J.Inv s) {t : Members} (htuple : t.rhsTuple = s.rhsTuple)
    (hbucket : t.currentBucket = s.currentBucket + 1) (hstate : t.currentState = .notEnum) :
    J.Inv t := by
  refine ⟨fun b hb => ?_, fun _ => ?_, fun h => ?_, fun h => ?_⟩
  · rw [htuple]
    exact h.later b (by omega)
  · rw [htuple]
    exact h.later _ (by omega)
  · simp [hstate] at h
  · simp [hstate] at h

theorem Inv.nextOfRange (h : J.Inv s) (hs : s.currentState = .enumWithSecondHashIter) :
    J.Inv (J.nextOfRange s).after := by
  unfold HashJoinGrace.nextOfRange
  split
  · exact h
  · dsimp only
    split
    · exact h.second rfl rfl (Or.inr rfl)
    · exact h.second rfl rfl (Or.inl hs)

theorem Inv.nextOfSecondHash (h : J.Inv s) (hs : s.currentState = .enumWithSecondHash) :
    J.Inv (J.nextOfSecondHash s).after := by
  unfold HashJoinGrace.nextOfSecondHash
  cases s.leftMin
  all_goals
    simp only [Bool.false_eq_true, if_true, if_false]
    split
    · split
      · exact h.second rfl rfl (Or.inr hs)
      · exact h.second rfl rfl (Or.inl rfl)
    · exact h.nextBucket rfl rfl rfl

theorem Inv.nextOfNestedLoop (h : J.Inv s) (hs : s.currentState = .enumWithNestedLoop) :
    J.Inv (J.nextOfNestedLoop s).after := by
  have hnested := h.nested (Or.inl hs)
  unfold HashJoinGrace.nextOfNestedLoop
  split
  · next hleft =>
    dsimp only
    split
    · next pos hfound =>
      refine ⟨h.later, fun h => by simp at h, fun _ => hnested, fun _ => ⟨hleft, pos, hfound,
        Nat.lt_succ_self pos, fun r hr hr' => ?_⟩⟩
      rw [Nat.le_antisymm (Nat.le_of_lt_succ hr') hr]
      exact ((findFirst_spec _ _ _).2 pos hfound).2
    · exact ⟨h.later, fun h => by simp [hs] at h, fun _ => hnested, fun h => by simp [hs] at h⟩
  · exact h.nextBucket rfl rfl rfl

theorem Inv.nextOfNestedLoopIter (h : J.Inv s) (hs : s.currentState = .enumWithNestedLoopIter) :
    J.Inv (J.nextOfNestedLoopIter s).after := by
  have hnested := h.nested (Or.inr hs)
  obtain ⟨hleft, pos, hfound, hpos, hkeys⟩ := h.iter hs
  unfold HashJoinGrace.nextOfNestedLoopIter
  dsimp only
  split
  · next hkey =>
    refine ⟨h.later, fun h => by simp [hs] at h, fun _ => hnested, fun _ => ⟨hleft, pos, hfound,
      Nat.lt_succ_of_lt hpos, fun r hr hr' => ?_⟩⟩
    rcases Nat.lt_succ_iff_lt_or_eq.mp hr' with hr' | rfl
    · exact hkeys r hr hr'
    · exact hkey.symm
  · exact ⟨h.later, fun h => by simp at h, fun _ => hnested, fun h => by simp at h⟩

theorem Inv.sorted (h : J.Inv s) (hs : s.currentState = .notEnum)
    (hnested : J.NestedLoop s.currentBucket) : J.Inv (J.sorted s) := by
  refine ⟨fun b hb => ?_, fun h => by simp [HashJoinGrace.sorted] at h, fun _ => ⟨hnested, ?_⟩,
    fun h => by simp [HashJoinGrace.sorted] at h⟩
  · dsimp only [HashJoinGrace.sorted] at hb ⊢
    rw [Function.update_of_ne (Nat.ne_of_gt hb)]
    exact h.later b hb
  · dsimp only [HashJoinGrace.sorted, HashJoinGrace.sortedTuple, HashJoinGrace.rhsSize]
    rw [Function.update_self, h.notEnum hs]

theorem Inv.nextOfNotEnum (h : J.Inv s) (hs : s.currentState = .notEnum) :
    J.Inv (J.nextOfNotEnum s).after := by
  have hstart : ∀ leftMin, J.Inv { s with
      leftMin := leftMin, currentPosLeft := 0, currentPosRight := 0 } := fun leftMin =>
    ⟨h.later, h.notEnum, fun h => by simp [hs] at h, fun h => by simp [hs] at h⟩
  unfold HashJoinGrace.nextOfNotEnum
  split
  · next htotal =>
    dsimp only
    split
    · next hmin =>
      split
      · exact h.second rfl rfl (Or.inr rfl)
      · next hlarge =>
        have hnested : J.NestedLoop s.currentBucket := ⟨htotal, by omega⟩
        exact (hstart _).sorted hs hnested
    · next hmin =>
      split
      · exact h.second rfl rfl (Or.inr rfl)
      · next hlarge =>
        have hnested : J.NestedLoop s.currentBucket := ⟨htotal, by omega⟩
        exact (hstart _).sorted hs hnested
  · exact h

theorem Inv.turn (h : J.Inv s) : J.Inv (J.turn s).after := by
  unfold HashJoinGrace.turn
  split
  · next hs => exact h.nextOfRange hs
  · next hs => exact h.nextOfSecondHash hs
  · next hs => exact h.nextOfNestedLoopIter hs
  · next hs => exact h.nextOfNestedLoop hs
  · next hs => exact h.nextOfNotEnum hs

def Reachable (J : HashJoinGrace) (binding : Nat → Nat) (s : Members) : Prop :=
  ∃ n, J.afterTurns binding n = s

variable {binding : Nat → Nat}

theorem Reachable.turn (h : J.Reachable binding s) : J.Reachable binding (J.turn s).after := by
  obtain ⟨n, rfl⟩ := h
  exact ⟨n + 1, Function.iterate_succ_apply' _ _ _⟩

theorem Reachable.inv (h : J.Reachable binding s) : J.Inv s := by
  obtain ⟨n, rfl⟩ := h
  induction n with
  | zero => exact inv_begin J binding
  | succ n ih =>
    unfold afterTurns at ih ⊢
    rw [Function.iterate_succ_apply']
    exact ih.turn

def ReadsInside (J : HashJoinGrace) (s : Members) : Prop :=
  ∀ read ∈ (J.turn s).reads, read.pos < J.sizeOf read

theorem mem_reads_of_iter (hs : s.currentState = .enumWithNestedLoopIter) :
    (⟨.rhs, s.currentBucket, s.currentPosRight⟩ : BucketRead) ∈ (J.turn s).reads := by
  unfold HashJoinGrace.turn HashJoinGrace.nextOfNestedLoopIter
  rw [hs]
  dsimp only
  split <;> simp

/-- Only where the sorted right tuples are followed, a position is not compared with the size. -/
theorem readsInside_of_inv (h : J.Inv s) (hiter : s.currentState = .enumWithNestedLoopIter →
    s.currentPosRight < J.rhsSize s) : J.ReadsInside s := by
  intro read hread
  unfold HashJoinGrace.turn at hread
  split at hread
  · unfold HashJoinGrace.nextOfRange at hread
    split at hread <;> exact absurd hread List.not_mem_nil
  · unfold HashJoinGrace.nextOfSecondHash at hread
    cases hmin : s.leftMin
    all_goals
      simp only [hmin, Bool.false_eq_true, if_true, if_false] at hread
      split at hread
      · next hpos =>
        split at hread
        all_goals
          rw [List.mem_singleton.mp hread]
          exact hpos
      · exact absurd hread List.not_mem_nil
  · next hs =>
    -- the tuple after the last one with the key
    have hreads : read = ⟨.lhs, s.currentBucket, s.currentPosLeft⟩ ∨
        read = ⟨.rhs, s.currentBucket, s.currentPosRight⟩ := by
      unfold HashJoinGrace.nextOfNestedLoopIter at hread
      dsimp only at hread
      split at hread
      all_goals
        simp only [List.mem_cons, List.not_mem_nil, or_false, or_self] at hread
        exact hread
    rcases hreads with rfl | rfl
    · exact (h.iter hs).1
    · exact hiter hs
  · next hs =>
    unfold HashJoinGrace.nextOfNestedLoop at hread
    split at hread
    · next hleft =>
      have hfind := findFirst_spec (J.leftTuple s).key (J.rhsSize s) (s.rhsTuple s.currentBucket)
      have hreads : ∀ read ∈ (⟨.lhs, s.currentBucket, s.currentPosLeft⟩ : BucketRead) ::
          (findFirst (J.leftTuple s).key (J.rhsSize s) (s.rhsTuple s.currentBucket)).1.map
            fun pos => ⟨.rhs, s.currentBucket, pos⟩, read.pos < J.sizeOf read := by
        intro read hread
        rcases List.mem_cons.mp hread with rfl | hread
        · exact hleft
        · obtain ⟨pos, hpos, rfl⟩ := List.mem_map.mp hread
          exact hfind.1 pos hpos
      dsimp only at hread
      split at hread
      · next pos hfound =>
        rcases List.mem_append.mp hread with hread | hread
        · exact hreads read hread
        · rw [List.mem_singleton.mp hread]
          exact (hfind.2 pos hfound).1
      · exact hreads read hread
    · exact absurd hread List.not_mem_nil
  · have hall : ∀ side size, (∀ pos, J.sizeOf ⟨side, s.currentBucket, pos⟩ = size) →
        ∀ read ∈ readAll side s.currentBucket size, read.pos < J.sizeOf read := by
      intro side size hsize read hread
      obtain ⟨pos, hpos, rfl⟩ := List.mem_map.mp hread
      rw [hsize]
      exact List.mem_range.mp hpos
    unfold HashJoinGrace.nextOfNotEnum at hread
    dsimp only at hread
    split at hread
    · split at hread
      · split at hread
        · exact hall .lhs _ (fun _ => rfl) read hread
        · exact absurd hread List.not_mem_nil
      · split at hread
        · exact hall .rhs _ (fun _ => rfl) read hread
        · exact absurd hread List.not_mem_nil
    · exact absurd hread List.not_mem_nil

theorem Reachable.endOfRange : ∀ {pairs : List (List Nat)} {s : Members},
    J.Reachable binding s → s.currentState = .enumWithSecondHashIter → s.pairs = pairs →
    pairs ≠ [] →
    ∃ t, J.Reachable binding t ∧ t.currentState = .enumWithSecondHash ∧
      t.currentBucket = s.currentBucket ∧ t.leftMin = s.leftMin ∧
      t.currentPosLeft = s.currentPosLeft ∧ t.currentPosRight = s.currentPosRight
  | [], _, _, _, _, hne => absurd rfl hne
  | value :: rest, s, h, hs, hpairs, _ => by
    have hturn := h.turn
    unfold HashJoinGrace.turn HashJoinGrace.nextOfRange at hturn
    rw [hs] at hturn
    dsimp only at hturn
    rw [hpairs] at hturn
    dsimp only at hturn
    by_cases hrest : rest = []
    · rw [if_pos hrest] at hturn
      exact ⟨_, hturn, rfl, rfl, rfl, rfl, rfl⟩
    · rw [if_neg hrest] at hturn
      exact hturn.endOfRange rfl rfl hrest

def positionsLeft (J : HashJoinGrace) (s : Members) : Nat :=
  if s.leftMin then J.rhsSize s - s.currentPosRight else J.lhsSize s - s.currentPosLeft

theorem nextOfSecondHash_cases (hs : s.currentState = .enumWithSecondHash) :
    ((J.nextOfSecondHash s).after.currentState = .notEnum ∧
      (J.nextOfSecondHash s).after.currentBucket = s.currentBucket + 1) ∨
    ((J.nextOfSecondHash s).after.currentBucket = s.currentBucket ∧
      J.positionsLeft (J.nextOfSecondHash s).after < J.positionsLeft s ∧
      ((J.nextOfSecondHash s).after.currentState = .enumWithSecondHash ∨
        ((J.nextOfSecondHash s).after.currentState = .enumWithSecondHashIter ∧
          (J.nextOfSecondHash s).after.pairs ≠ []))) := by
  unfold HashJoinGrace.nextOfSecondHash positionsLeft
  cases hmin : s.leftMin
  all_goals
    simp only [Bool.false_eq_true, if_true, if_false]
    split
    · next hpos =>
      right
      split
      · refine ⟨rfl, ?_, Or.inl hs⟩
        simp only [Bool.false_eq_true, if_true, if_false]
        exact Nat.sub_lt_sub_left hpos (Nat.lt_succ_self _)
      · next hrange =>
        refine ⟨rfl, ?_, Or.inr ⟨rfl, hrange⟩⟩
        simp only [Bool.false_eq_true, if_true, if_false]
        exact Nat.sub_lt_sub_left hpos (Nat.lt_succ_self _)
    · exact Or.inl ⟨rfl, rfl⟩

theorem Reachable.endOfSecondHash (n : Nat) : ∀ {s : Members}, J.positionsLeft s ≤ n →
    J.Reachable binding s → s.currentState = .enumWithSecondHash →
    ∃ t, J.Reachable binding t ∧ t.currentState = .notEnum ∧
      t.currentBucket = s.currentBucket + 1 := by
  induction n with
  | zero =>
    intro s hn h hs
    have hturn := h.turn
    unfold HashJoinGrace.turn at hturn
    rw [hs] at hturn
    dsimp only at hturn
    rcases nextOfSecondHash_cases (J := J) hs with hend | hgo
    · exact ⟨_, hturn, hend⟩
    · omega
  | succ n ih =>
    intro s hn h hs
    have hturn := h.turn
    unfold HashJoinGrace.turn at hturn
    rw [hs] at hturn
    dsimp only at hturn
    rcases nextOfSecondHash_cases (J := J) hs with hend | ⟨hbucket, hless, hstate | ⟨hstate, hne⟩⟩
    · exact ⟨_, hturn, hend⟩
    · have hrest := ih (by omega) hturn hstate
      rw [hbucket] at hrest
      exact hrest
    · obtain ⟨t, ht, htstate, htbucket, htmin, htleft, htright⟩ :=
        hturn.endOfRange hstate rfl hne
      have hsame : J.positionsLeft t = J.positionsLeft (J.nextOfSecondHash s).after := by
        simp only [positionsLeft, rhsSize, lhsSize, htbucket, htmin, htleft, htright]
      have hrest := ih (by omega) ht htstate
      rw [htbucket, hbucket] at hrest
      exact hrest

/-- Where every position read is of its bucket, the right tuples with a key end before the
bucket. -/
theorem Reachable.endOfNestedLoopIter (hinside : ∀ s, J.Reachable binding s → J.ReadsInside s)
    (n : Nat) : ∀ {s : Members}, J.rhsSize s - s.currentPosRight ≤ n → J.Reachable binding s →
    s.currentState = .enumWithNestedLoopIter →
    J.EndsBefore s.currentBucket s.currentPosLeft ∧
    ∃ t, J.Reachable binding t ∧ t.currentState = .enumWithNestedLoop ∧
      t.currentBucket = s.currentBucket ∧ t.currentPosLeft = s.currentPosLeft + 1 := by
  induction n with
  | zero =>
    intro s hn h hs
    have hread := hinside s h ⟨.rhs, s.currentBucket, s.currentPosRight⟩ (mem_reads_of_iter hs)
    dsimp only [HashJoinGrace.sizeOf, rhsSize] at hread hn
    omega
  | succ n ih =>
    intro s hn h hs
    have hread := hinside s h ⟨.rhs, s.currentBucket, s.currentPosRight⟩ (mem_reads_of_iter hs)
    obtain ⟨hleft, pos, hfound, hpos, hkeys⟩ := h.inv.iter hs
    have htuple := (h.inv.nested (Or.inr hs)).2
    have hturn := h.turn
    unfold HashJoinGrace.turn HashJoinGrace.nextOfNestedLoopIter at hturn
    rw [hs] at hturn
    dsimp only at hturn
    by_cases hkey : (J.leftTuple s).key = (rightTuple s).key
    · rw [if_pos hkey] at hturn
      have hrest := fun hle => ih hle hturn rfl
      apply hrest
      dsimp only [HashJoinGrace.sizeOf, rhsSize] at hread hn ⊢
      omega
    · rw [if_neg hkey] at hturn
      refine ⟨fun p hp => ⟨s.currentPosRight, ?_, hread, fun heq => hkey ?_⟩, _, hturn, rfl, rfl,
        rfl⟩
      · rw [htuple] at hfound
        rw [← Option.some.inj (hfound.symm.trans hp)]
        exact hpos
      · rw [← htuple] at heq
        exact heq.symm

theorem Reachable.endOfNestedLoop (hinside : ∀ s, J.Reachable binding s → J.ReadsInside s)
    (n : Nat) : ∀ {s : Members}, J.lhsSize s - s.currentPosLeft ≤ n → J.Reachable binding s →
    s.currentState = .enumWithNestedLoop →
    (∀ posLeft, s.currentPosLeft ≤ posLeft → posLeft < J.lhsSize s →
      J.EndsBefore s.currentBucket posLeft) ∧
    ∃ t, J.Reachable binding t ∧ t.currentState = .notEnum ∧
      t.currentBucket = s.currentBucket + 1 := by
  induction n with
  | zero =>
    intro s hn h hs
    have hturn := h.turn
    unfold HashJoinGrace.turn HashJoinGrace.nextOfNestedLoop at hturn
    rw [hs] at hturn
    dsimp only at hturn
    rw [if_neg (by omega)] at hturn
    exact ⟨fun posLeft _ _ => by omega, _, hturn, rfl, rfl⟩
  | succ n ih =>
    intro s hn h hs
    have htuple := (h.inv.nested (Or.inl hs)).2
    have hturn := h.turn
    unfold HashJoinGrace.turn HashJoinGrace.nextOfNestedLoop at hturn
    rw [hs] at hturn
    dsimp only at hturn
    by_cases hleft : s.currentPosLeft < J.lhsSize s
    · -- the first position has its tuple followed to the end, the others are the next turns'
      have hstep : ∀ t : Members, J.Reachable binding t → t.currentState = .enumWithNestedLoop →
          t.currentBucket = s.currentBucket → t.currentPosLeft = s.currentPosLeft + 1 →
          J.EndsBefore s.currentBucket s.currentPosLeft →
          (∀ posLeft, s.currentPosLeft ≤ posLeft → posLeft < J.lhsSize s →
            J.EndsBefore s.currentBucket posLeft) ∧
          ∃ t, J.Reachable binding t ∧ t.currentState = .notEnum ∧
            t.currentBucket = s.currentBucket + 1 := by
        intro t ht hstate hbucket hposLeft hends
        have hsize : J.lhsSize t = J.lhsSize s := by rw [lhsSize, lhsSize, hbucket]
        have hrest := ih (by omega) ht hstate
        rw [hsize, hposLeft, hbucket] at hrest
        refine ⟨fun posLeft hle hlt => ?_, hrest.2⟩
        rcases Nat.eq_or_lt_of_le hle with rfl | hle
        · exact hends
        · exact hrest.1 posLeft hle hlt
      rw [if_pos hleft] at hturn
      cases hfound : (findFirst (J.leftTuple s).key (J.rhsSize s)
          (s.rhsTuple s.currentBucket)).2 with
      | none =>
        rw [hfound] at hturn
        dsimp only at hturn
        apply hstep _ hturn rfl rfl rfl
        intro pos hpos
        rw [htuple] at hfound
        exact absurd (hfound.symm.trans hpos) (Option.some_ne_none pos).symm
      | some pos =>
        rw [hfound] at hturn
        dsimp only at hturn
        obtain ⟨hends, t, ht, hstate, hbucket, hposLeft⟩ :=
          Reachable.endOfNestedLoopIter hinside _ (Nat.le_refl _) hturn rfl
        exact hstep t ht hstate hbucket hposLeft hends
    · rw [if_neg hleft] at hturn
      exact ⟨fun posLeft _ _ => by omega, _, hturn, rfl, rfl⟩

theorem Reachable.endOfBucket (hinside : ∀ s, J.Reachable binding s → J.ReadsInside s)
    (h : J.Reachable binding s) (hs : s.currentState = .notEnum)
    (htotal : s.currentBucket < J.totalBuckets) :
    (J.NestedLoop s.currentBucket → ∀ posLeft < J.lhsHash.size s.currentBucket,
      J.EndsBefore s.currentBucket posLeft) ∧
    ∃ t, J.Reachable binding t ∧ t.currentState = .notEnum ∧
      t.currentBucket = s.currentBucket + 1 := by
  have hturn := h.turn
  unfold HashJoinGrace.turn HashJoinGrace.nextOfNotEnum at hturn
  rw [hs] at hturn
  dsimp only at hturn
  rw [if_pos htotal] at hturn
  by_cases hmin : J.leftBytes s.currentBucket < J.rightBytes s.currentBucket
  all_goals
    first | rw [if_pos hmin] at hturn | rw [if_neg hmin] at hturn
  · by_cases hsmall : J.leftBytes s.currentBucket < maxSizeSmallHash
    · rw [if_pos hsmall] at hturn
      have hrest := hturn.endOfSecondHash _ (Nat.le_refl _) rfl
      refine ⟨fun hnested => ?_, hrest⟩
      have := hnested.2
      omega
    · rw [if_neg hsmall] at hturn
      have hrest := Reachable.endOfNestedLoop hinside _ (Nat.le_refl _) hturn rfl
      exact ⟨fun _ posLeft hlt => hrest.1 posLeft (Nat.zero_le _) hlt, hrest.2⟩
  · by_cases hsmall : J.rightBytes s.currentBucket < maxSizeSmallHash
    · rw [if_pos hsmall] at hturn
      have hrest := hturn.endOfSecondHash _ (Nat.le_refl _) rfl
      refine ⟨fun hnested => ?_, hrest⟩
      have := hnested.2
      omega
    · rw [if_neg hsmall] at hturn
      have hrest := Reachable.endOfNestedLoop hinside _ (Nat.le_refl _) hturn rfl
      exact ⟨fun _ posLeft hlt => hrest.1 posLeft (Nat.zero_le _) hlt, hrest.2⟩

theorem Reachable.bucket (hinside : ∀ s, J.Reachable binding s → J.ReadsInside s) : ∀ b,
    b ≤ J.totalBuckets →
    ∃ s, J.Reachable binding s ∧ s.currentState = .notEnum ∧ s.currentBucket = b
  | 0, _ => ⟨J.begin binding, ⟨0, rfl⟩, rfl, rfl⟩
  | b + 1, hb => by
    obtain ⟨s, h, hs, hbucket⟩ := Reachable.bucket hinside b (by omega)
    obtain ⟨-, t, ht, hstate, hnext⟩ := h.endOfBucket hinside hs (by omega)
    exact ⟨t, ht, hstate, by omega⟩

/-- Over any number of calls every position read is of its bucket just if in the nested loop no
left key is followed in the right bucket up to its end. -/
theorem reads_inside_iff (J : HashJoinGrace) (binding : Nat → Nat) :
    (∀ n, ∀ read ∈ (J.turn (J.afterTurns binding n)).reads, read.pos < J.sizeOf read) ↔
      ∀ bucket, J.NestedLoop bucket → ∀ posLeft < J.lhsHash.size bucket,
        J.EndsBefore bucket posLeft := by
  constructor
  · intro hall bucket hnested
    have hinside : ∀ s, J.Reachable binding s → J.ReadsInside s := by
      intro s ⟨n, hn⟩
      rw [← hn]
      exact hall n
    obtain ⟨s, h, hs, rfl⟩ := Reachable.bucket hinside bucket (Nat.le_of_lt hnested.1)
    exact (h.endOfBucket hinside hs hnested.1).1 hnested
  · intro hall n
    have hinv : J.Inv (J.afterTurns binding n) := Reachable.inv ⟨n, rfl⟩
    apply readsInside_of_inv hinv
    intro hs
    obtain ⟨hleft, pos, hfound, hpos, hkeys⟩ := hinv.iter hs
    obtain ⟨hnested, htuple⟩ := hinv.nested (Or.inr hs)
    rw [htuple] at hfound hkeys
    obtain ⟨r, hr, hsize, hne⟩ := hall _ hnested _ hleft pos hfound
    by_contra hlast
    exact hne (hkeys r (Nat.le_of_lt hr) (by unfold rhsSize at hlast; omega))

theorem endsBefore_iff_of_sorted {bucket posLeft : Nat}
    (hsorted : ∀ i j, i ≤ j → j < J.rhsHash.size bucket →
      (J.sortedTuple bucket i).Le (J.sortedTuple bucket j))
    (hlength : ∀ i < J.rhsHash.size bucket, (J.sortedTuple bucket i).key.length =
      (J.lhsHash.tuple bucket posLeft).key.length) (hpos : 0 < J.rhsHash.size bucket) :
    J.EndsBefore bucket posLeft ↔ (J.sortedTuple bucket (J.rhsHash.size bucket - 1)).key ≠
      (J.lhsHash.tuple bucket posLeft).key := by
  constructor
  · intro hends hlast
    obtain ⟨pos, hfound⟩ := findFirst_finds hsorted hlength (by omega) hlast
    obtain ⟨r, hr, hsize, hne⟩ := hends pos hfound
    have hkey := ((findFirst_spec _ _ _).2 pos hfound).2
    have hfrom := hsorted pos r (Nat.le_of_lt hr) hsize
    have hto := hsorted r (J.rhsHash.size bucket - 1) (by omega) (by omega)
    unfold KeyValueTuple.Le at hfrom hto
    rw [hkey] at hfrom
    rw [hlast] at hto
    exact hne (le_antisymm hto hfrom)
  · intro hlast pos hfound
    obtain ⟨hsize, hkey⟩ := (findFirst_spec _ _ _).2 pos hfound
    refine ⟨J.rhsHash.size bucket - 1, ?_, by omega, hlast⟩
    apply Nat.lt_of_le_of_ne (by omega)
    intro heq
    rw [heq] at hkey
    exact hlast hkey

/-- A child that returns one binding over and over, four megabytes of it. -/
def sameKeys : KeyValueBuckets where
  size bucket := if bucket = 0 then 524288 else 0
  tuple _ _ := ⟨[7], []⟩

def joinSameKeys : HashJoinGrace where
  leftVars := []
  commonVars := [0]
  rightVars := []
  lhsHash := sameKeys
  rhsHash := sameKeys
  totalBuckets := 2 ^ 11
  sortBucket _ tuple := tuple

/-- The right tuples are followed behind the last one. -/
theorem reads_outside_sameKeys : ¬ ∀ n, ∀ read ∈
    (joinSameKeys.turn (joinSameKeys.afterTurns (fun _ => 0) n)).reads,
      read.pos < joinSameKeys.sizeOf read := by
  intro hall
  have hinside : ∀ s, joinSameKeys.Reachable (fun _ => 0) s → joinSameKeys.ReadsInside s := by
    intro s ⟨n, hn⟩
    rw [← hn]
    exact hall n
  have hnested : joinSameKeys.NestedLoop 0 := ⟨by decide, by decide⟩
  have hbegin : joinSameKeys.Reachable (fun _ => 0) (joinSameKeys.begin fun _ => 0) := ⟨0, rfl⟩
  have hends := (hbegin.endOfBucket hinside rfl hnested.1).1 hnested 0 (by decide)
  have hlast := (endsBefore_iff_of_sorted (fun _ _ _ _ => le_refl [7]) (fun _ _ => rfl)
    (by decide)).mp hends
  exact hlast rfl

end
end HashJoinGrace
end MillenniumDB
