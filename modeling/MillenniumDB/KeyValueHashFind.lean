import MillenniumDB.KeyValueHashBucket

/-!
# The search for the first tuple with a key

`KeyValueHash::find_first` halves the range of places in a sorted bucket until one is left, where
the first tuple with the key stands if there is one.
-/

namespace MillenniumDB

/-- The half of the range that `find_first` goes on with. -/
def halve (key : List Nat) (tuple : Nat → KeyValueTuple) (currMin currMax : Nat) : Nat × Nat :=
  if KeyValueHashBucket.smallerKey (tuple ((currMin + currMax) / 2)).key key then
    ((currMin + currMax) / 2 + 1, currMax)
  else (currMin, (currMin + currMax) / 2)

theorem halve_cases (key : List Nat) (tuple : Nat → KeyValueTuple) (currMin currMax : Nat) :
    halve key tuple currMin currMax = ((currMin + currMax) / 2 + 1, currMax) ∨
      halve key tuple currMin currMax = (currMin, (currMin + currMax) / 2) := by
  unfold halve
  split
  · exact Or.inl rfl
  · exact Or.inr rfl

/-- The loop of `find_first`, with the positions that it reads.  `curr_pos` is the middle of the
range at each turn. -/
def findFirstIn (key : List Nat) (tuple : Nat → KeyValueTuple) (currMin currMax : Nat) :
    List Nat × Option Nat :=
  if currMin ≤ currMax then
    have _cases := halve_cases key tuple currMin currMax
    let range := halve key tuple currMin currMax
    let pos := (range.1 + range.2) / 2
    if pos = range.1 ∧ pos = range.2 then
      ([pos], if (tuple pos).key = key then some pos else none)
    else
      let found := findFirstIn key tuple range.1 range.2
      (pos :: found.1, found.2)
  else ([], none)
termination_by currMax + 1 - currMin
decreasing_by
  rename_i hne
  rcases _cases with h | h
  · rw [h]
    dsimp only
    omega
  · dsimp only [pos, range] at hne
    rw [h] at hne ⊢
    dsimp only at hne ⊢
    omega

/-- `find_first` in a bucket of the given size. -/
def findFirst (key : List Nat) (size : Nat) (tuple : Nat → KeyValueTuple) :
    List Nat × Option Nat :=
  if size = 0 then ([], none)
  else
    let found := findFirstIn key tuple 0 (size - 1)
    ((0 + (size - 1)) / 2 :: found.1, found.2)

theorem findFirstIn_spec (key : List Nat) (tuple : Nat → KeyValueTuple) (currMin currMax : Nat) :
    currMin ≤ currMax + 1 →
    (∀ pos ∈ (findFirstIn key tuple currMin currMax).1, pos ≤ currMax) ∧
      ∀ pos, (findFirstIn key tuple currMin currMax).2 = some pos →
        pos ≤ currMax ∧ (tuple pos).key = key := by
  fun_induction findFirstIn key tuple currMin currMax with
  | case1 currMin currMax hle hcases range pos hpos =>
    intro _
    have hmax : pos ≤ currMax := by
      rcases hcases with h | h
      all_goals
        dsimp only [pos, range] at hpos ⊢
        rw [h] at hpos ⊢
        dsimp only at hpos ⊢
        omega
    refine ⟨fun p hp => ?_, fun p hp => ?_⟩
    · rw [List.mem_singleton.mp hp]
      exact hmax
    · split at hp
      · next hkey =>
        rw [← Option.some.inj hp]
        exact ⟨hmax, hkey⟩
      · exact absurd hp (Option.some_ne_none p).symm
  | case2 currMin currMax hle hcases range pos hpos found ih =>
    intro _
    have hrange : range.1 ≤ range.2 + 1 ∧ range.2 ≤ currMax ∧ pos ≤ currMax := by
      rcases hcases with h | h
      all_goals
        dsimp only [pos, range]
        rw [h]
        dsimp only
        omega
    have hfound := ih hrange.1
    refine ⟨fun p hp => ?_, fun p hp => ?_⟩
    · rcases List.mem_cons.mp hp with rfl | hp
      · exact hrange.2.2
      · exact (hfound.1 p hp).trans hrange.2.1
    · exact ⟨(hfound.2 p hp).1.trans hrange.2.1, (hfound.2 p hp).2⟩
  | case3 currMin currMax hle =>
    exact fun _ => ⟨fun _ hp => absurd hp List.not_mem_nil,
      fun p hp => absurd hp (Option.some_ne_none p).symm⟩

theorem findFirst_spec (key : List Nat) (size : Nat) (tuple : Nat → KeyValueTuple) :
    (∀ pos ∈ (findFirst key size tuple).1, pos < size) ∧
      ∀ pos, (findFirst key size tuple).2 = some pos → pos < size ∧ (tuple pos).key = key := by
  unfold findFirst
  split
  · exact ⟨fun _ hp => absurd hp List.not_mem_nil,
      fun p hp => absurd hp (Option.some_ne_none p).symm⟩
  · have hfound := findFirstIn_spec key tuple 0 (size - 1) (Nat.zero_le _)
    refine ⟨fun p hp => ?_, fun p hp => ?_⟩
    · rcases List.mem_cons.mp hp with rfl | hp
      · omega
      · have := hfound.1 p hp
        omega
    · have := (hfound.2 p hp).1
      exact ⟨by omega, (hfound.2 p hp).2⟩

section

variable {key : List Nat} {size : Nat} {tuple : Nat → KeyValueTuple}

theorem halve_keeps (hsorted : ∀ i j, i ≤ j → j < size → (tuple i).Le (tuple j))
    (hlength : ∀ i < size, (tuple i).key.length = key.length) {currMin currMax : Nat}
    (hmax : currMax < size) (h : ∃ i, currMin ≤ i ∧ i ≤ currMax ∧ (tuple i).key = key) :
    ∃ i, (halve key tuple currMin currMax).1 ≤ i ∧ i ≤ (halve key tuple currMin currMax).2 ∧
      (tuple i).key = key := by
  obtain ⟨i, hmin, hi, hkey⟩ := h
  have hmid : (currMin + currMax) / 2 < size := by omega
  have hsmaller := KeyValueHashBucket.smallerKey_iff (hlength _ hmid)
  unfold halve
  split
  · next hs =>
    refine ⟨i, ?_, hi, hkey⟩
    by_contra hbefore
    have hle := hsorted i _ (by omega : i ≤ (currMin + currMax) / 2) hmid
    unfold KeyValueTuple.Le at hle
    rw [hkey] at hle
    exact absurd (hsmaller.mp hs) (not_lt_of_ge hle)
  · next hs =>
    rcases Nat.le_total i ((currMin + currMax) / 2) with hle | hle
    · exact ⟨i, hmin, hle, hkey⟩
    · -- the tuple in the middle has the key too
      refine ⟨(currMin + currMax) / 2, by dsimp only; omega, Nat.le_refl _, ?_⟩
      have hbelow := hsorted _ i hle (by omega)
      unfold KeyValueTuple.Le at hbelow
      rw [hkey] at hbelow
      exact le_antisymm hbelow (not_lt.mp fun hlt => hs (hsmaller.mpr hlt))

theorem findFirstIn_finds (hsorted : ∀ i j, i ≤ j → j < size → (tuple i).Le (tuple j))
    (hlength : ∀ i < size, (tuple i).key.length = key.length) (currMin currMax : Nat) :
    currMax < size → (∃ i, currMin ≤ i ∧ i ≤ currMax ∧ (tuple i).key = key) →
    ∃ pos, (findFirstIn key tuple currMin currMax).2 = some pos := by
  fun_induction findFirstIn key tuple currMin currMax with
  | case1 currMin currMax hle hcases range pos hpos =>
    intro hmax h
    obtain ⟨i, hmin, hi, hkey⟩ := halve_keeps hsorted hlength hmax h
    have heq : i = pos := by
      dsimp only [range] at hpos
      omega
    exact ⟨pos, if_pos (heq ▸ hkey)⟩
  | case2 currMin currMax hle hcases range pos hpos found ih =>
    intro hmax h
    refine ih ?_ (halve_keeps hsorted hlength hmax h)
    rcases hcases with h | h
    all_goals
      dsimp only [range]
      rw [h]
      dsimp only
      omega
  | case3 currMin currMax hle =>
    intro _ ⟨i, hmin, hi, _⟩
    omega

theorem findFirst_finds (hsorted : ∀ i j, i ≤ j → j < size → (tuple i).Le (tuple j))
    (hlength : ∀ i < size, (tuple i).key.length = key.length) {i : Nat} (hi : i < size)
    (hkey : (tuple i).key = key) : ∃ pos, (findFirst key size tuple).2 = some pos := by
  unfold findFirst
  rw [if_neg (Nat.ne_of_gt (Nat.zero_lt_of_lt hi))]
  exact findFirstIn_finds hsorted hlength 0 (size - 1) (by omega)
    ⟨i, Nat.zero_le i, by omega, hkey⟩

theorem halve_below (hsorted : ∀ i j, i ≤ j → j < size → (tuple i).Le (tuple j))
    (hlength : ∀ i < size, (tuple i).key.length = key.length) {currMin currMax : Nat}
    (hmax : currMax < size) (hle : currMin ≤ currMax) (h : ∀ j < currMin, (tuple j).key < key) :
    ∀ j < (halve key tuple currMin currMax).1, (tuple j).key < key := by
  intro j hj
  have hmid : (currMin + currMax) / 2 < size := by omega
  unfold halve at hj
  split at hj
  · next hs =>
    have hbelow : (tuple j).key ≤ (tuple ((currMin + currMax) / 2)).key :=
      hsorted j _ (Nat.le_of_lt_succ hj) hmid
    exact lt_of_le_of_lt hbelow ((KeyValueHashBucket.smallerKey_iff (hlength _ hmid)).mp hs)
  · exact h j hj

theorem findFirstIn_first (hsorted : ∀ i j, i ≤ j → j < size → (tuple i).Le (tuple j))
    (hlength : ∀ i < size, (tuple i).key.length = key.length) (currMin currMax : Nat) :
    currMax < size → (∀ j < currMin, (tuple j).key < key) →
    ∀ pos, (findFirstIn key tuple currMin currMax).2 = some pos →
      ∀ j < pos, (tuple j).key < key := by
  fun_induction findFirstIn key tuple currMin currMax with
  | case1 currMin currMax hle hcases range pos hpos =>
    intro hmax h p hp j hj
    have hfound : p = pos := by
      split at hp
      · exact (Option.some.inj hp).symm
      · cases hp
    apply halve_below hsorted hlength hmax hle h
    exact Nat.lt_of_lt_of_eq (hfound ▸ hj) hpos.1
  | case2 currMin currMax hle hcases range pos hpos found ih =>
    intro hmax h
    apply ih _ (halve_below hsorted hlength hmax hle h)
    rcases hcases with h | h
    all_goals
      dsimp only [range]
      rw [h]
      dsimp only
      omega
  | case3 currMin currMax hle =>
    intro _ _ p hp
    cases hp

theorem findFirst_eq_some_iff (hsorted : ∀ i j, i ≤ j → j < size → (tuple i).Le (tuple j))
    (hlength : ∀ i < size, (tuple i).key.length = key.length) (pos : Nat) :
    (findFirst key size tuple).2 = some pos ↔
      pos < size ∧ (tuple pos).key = key ∧ ∀ j < pos, (tuple j).key ≠ key := by
  have hfirst : ∀ p, (findFirst key size tuple).2 = some p →
      p < size ∧ (tuple p).key = key ∧ ∀ j < p, (tuple j).key ≠ key := by
    intro p hp
    obtain ⟨hlt, hkey⟩ := (findFirst_spec key size tuple).2 p hp
    refine ⟨hlt, hkey, fun j hj => ?_⟩
    unfold findFirst at hp
    rw [if_neg (Nat.ne_of_gt (Nat.zero_lt_of_lt hlt))] at hp
    exact (findFirstIn_first hsorted hlength 0 (size - 1) (by omega)
      (fun j hj => absurd hj (Nat.not_lt_zero j)) p hp j hj).ne
  refine ⟨hfirst pos, fun h => ?_⟩
  obtain ⟨p, hp⟩ := findFirst_finds hsorted hlength h.1 h.2.1
  have hfound := hfirst p hp
  -- neither place is before the other
  rcases Nat.lt_trichotomy p pos with hlt | rfl | hlt
  · exact absurd hfound.2.1 (h.2.2 p hlt)
  · exact hp
  · exact absurd h.2.1 (hfound.2.2 pos hlt)

end

end MillenniumDB
