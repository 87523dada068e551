import Mathlib.Data.Finset.Card
import Mathlib.Data.Set.Insert
import Mathlib.Tactic.Linarith
import MillenniumDB.Lib.Runs

/-!
# Breadth-first search

A search expands the entries of a queue one after the other.  An entry knows the vertex it
stands for; a successor that is not yet visited becomes a new entry at the end of the
queue.  `Search` is the whole rest of such a search from a state in the middle of an
expansion, with the entries it is going to find.  The results do not depend on when the
search is suspended: they are about its rest from any state.
-/

namespace MillenniumDB

variable {V L E : Type*}

/-- From the visited vertices `vis`, with `e` being expanded and its successors `xs` still
to look at, and `rest` queued behind it, the search finds the entries `out`. -/
inductive Search (succ : V → List (L × V)) (key : E → V) (extend : E → L × V → E) :
    Set V → E → List (L × V) → List E → List E → Prop
  | skip {vis e x xs rest out} : x.2 ∈ vis → Search succ key extend vis e xs rest out →
      Search succ key extend vis e (x :: xs) rest out
  | take {vis e x xs rest out} : x.2 ∉ vis →
      Search succ key extend (insert x.2 vis) e xs (rest ++ [extend e x]) out →
      Search succ key extend vis e (x :: xs) rest (extend e x :: out)
  | pop {vis e e' rest out} : Search succ key extend vis e' (succ (key e')) rest out →
      Search succ key extend vis e [] (e' :: rest) out
  | stop {vis e} : Search succ key extend vis e [] [] []

/-- The entries that a search from `root` can build. -/
inductive Derived (succ : V → List (L × V)) (key : E → V) (extend : E → L × V → E) (root : E) :
    E → Prop
  | root : Derived succ key extend root root
  | step {e x} : Derived succ key extend root e → x ∈ succ (key e) →
      Derived succ key extend root (extend e x)

def keysOf (key : E → V) (visited : List E) : Set V := {v | ∃ e ∈ visited, key e = v}

theorem keysOf_concat {key : E → V} {visited : List E} {e : E} :
    keysOf key (visited ++ [e]) = insert (key e) (keysOf key visited) := by
  ext v
  simp only [keysOf, Set.mem_ofPred_eq, Set.mem_insert_iff, List.mem_append, List.mem_singleton]
  constructor
  · rintro ⟨e', he | rfl, rfl⟩
    · exact .inr ⟨e', he, rfl⟩
    · exact .inl rfl
  · rintro (rfl | ⟨e', he, rfl⟩)
    · exact ⟨e, .inr rfl, rfl⟩
    · exact ⟨e', .inl he, rfl⟩

namespace Search

variable {succ : V → List (L × V)} {key : E → V} {extend : E → L × V → E} {vis : Set V}
  {root e : E} {x : L × V} {xs : List (L × V)} {rest out : List E}

theorem skip_iff (hx : x.2 ∈ vis) :
    Search succ key extend vis e (x :: xs) rest out ↔ Search succ key extend vis e xs rest out := by
  refine ⟨fun h => ?_, .skip hx⟩
  cases h with
  | skip _ h => exact h
  | take hn _ => exact absurd hx hn

theorem take_inv (hx : x.2 ∉ vis) (h : Search succ key extend vis e (x :: xs) rest out) :
    ∃ out', out = extend e x :: out' ∧
      Search succ key extend (insert x.2 vis) e xs (rest ++ [extend e x]) out' := by
  cases h with
  | skip hv _ => exact absurd hv hx
  | take _ h => exact ⟨_, rfl, h⟩

theorem pop_inv {e' : E} (h : Search succ key extend vis e [] (e' :: rest) out) :
    Search succ key extend vis e' (succ (key e')) rest out := by
  cases h with
  | pop h => exact h

theorem stop_inv (h : Search succ key extend vis e [] [] out) : out = [] := by
  cases h
  rfl

theorem card_unvisited_lt [DecidableEq V] {U : Finset V} {v : V} (hv : v ∈ U) (hvis : v ∉ vis)
    [DecidablePred (· ∉ vis)] [DecidablePred (· ∉ insert v vis)] :
    (U.filter (· ∉ insert v vis)).card < (U.filter (· ∉ vis)).card := by
  apply Finset.card_lt_card
  refine ⟨fun u hu => ?_, fun hsub => ?_⟩
  · simp only [Finset.mem_filter, Set.mem_insert_iff, not_or] at hu ⊢
    exact ⟨hu.1, hu.2.2⟩
  · have hmem := hsub (Finset.mem_filter.mpr ⟨hv, hvis⟩)
    simp at hmem

theorem exists_out_of_nil
    (htake : ∀ x ys, x.2 ∉ vis → x ∈ xs → ys ⊆ xs →
      ∃ out, Search succ key extend (insert x.2 vis) e ys (rest ++ [extend e x]) out)
    (hnil : ∃ out, Search succ key extend vis e [] rest out) :
    ∃ out, Search succ key extend vis e xs rest out := by
  induction xs with
  | nil => exact hnil
  | cons x xs ih =>
    by_cases hx : x.2 ∈ vis
    · obtain ⟨out, h⟩ := ih fun y ys hy hmem hsub =>
        htake y ys hy (List.mem_cons_of_mem x hmem) fun z hz => List.mem_cons_of_mem x (hsub hz)
      exact ⟨out, .skip hx h⟩
    · obtain ⟨out, h⟩ := htake x xs hx List.mem_cons_self (List.subset_cons_self x xs)
      exact ⟨_, .take hx h⟩

theorem exists_out [DecidableEq V] (U : Finset V) (hU : ∀ v ∈ U, ∀ x ∈ succ v, x.2 ∈ U)
    (hkey : ∀ e x, key (extend e x) = x.2) (hxs : ∀ x ∈ xs, x.2 ∈ U)
    (hrest : ∀ r ∈ rest, key r ∈ U) : ∃ out, Search succ key extend vis e xs rest out := by
  classical
  -- a new entry uses up a vertex of `U`, a pop an entry of the queue
  induction hn : (U.filter (· ∉ vis)).card using Nat.strong_induction_on
    generalizing vis e xs rest with
  | _ n ihn =>
    have htake : ∀ e xs rest, (∀ x ∈ xs, x.2 ∈ U) → (∀ r ∈ rest, key r ∈ U) →
        ∀ x ys, x.2 ∉ vis → x ∈ xs → ys ⊆ xs →
          ∃ out, Search succ key extend (insert x.2 vis) e ys (rest ++ [extend e x]) out := by
      intro e xs rest hxs hrest x ys hx hmem hsub
      refine ihn _ ?_ (fun y hy => hxs y (hsub hy)) (fun r hr => ?_) rfl
      · rw [← hn]
        convert card_unvisited_lt (hxs x hmem) hx
      · rcases List.mem_append.mp hr with hr | hr
        · exact hrest r hr
        · rw [List.mem_singleton.mp hr, hkey]
          exact hxs x hmem
    induction rest generalizing e xs with
    | nil => exact exists_out_of_nil (htake e xs [] hxs hrest) ⟨[], .stop⟩
    | cons e' rest ih =>
      have hrest' : ∀ r ∈ rest, key r ∈ U := fun r hr => hrest r (List.mem_cons_of_mem e' hr)
      obtain ⟨out, h⟩ := ih (hU _ (hrest e' List.mem_cons_self)) hrest'
      exact exists_out_of_nil (htake e xs _ hxs hrest) ⟨out, .pop h⟩

theorem congr_succ {succ' : V → List (L × V)} (h : Search succ key extend vis e xs rest out)
    (hrest : ∀ r ∈ rest, succ' (key r) = succ (key r))
    (hout : ∀ r ∈ out, succ' (key r) = succ (key r)) : Search succ' key extend vis e xs rest out := by
  induction h with
  | skip hv _ ih => exact .skip hv (ih hrest hout)
  | take hv _ ih =>
    obtain ⟨hnew, hout⟩ := List.forall_mem_cons.mp hout
    exact .take hv (ih (List.forall_mem_append.mpr ⟨hrest, by simpa using hnew⟩) hout)
  | pop _ ih =>
    obtain ⟨hhead, hrest⟩ := List.forall_mem_cons.mp hrest
    exact .pop (hhead ▸ ih hrest hout)
  | stop => exact .stop

/-- What the entries to expand have and an extension keeps, the entries that are found have. -/
theorem forall_out {p : E → Prop} (h : Search succ key extend vis e xs rest out)
    (hextend : ∀ e x, p e → x ∈ succ (key e) → p (extend e x)) (hroot : p e)
    (hxs : xs ⊆ succ (key e)) (hrest : ∀ r ∈ rest, p r) : ∀ r ∈ out, p r := by
  induction h with
  | skip _ _ ih => exact ih hroot (fun y hy => hxs (List.mem_cons_of_mem _ hy)) hrest
  | @take vis e x xs rest out _ _ ih =>
    have hnew : p (extend e x) := hextend e x hroot (hxs List.mem_cons_self)
    have hout := ih hroot (fun y hy => hxs (List.mem_cons_of_mem _ hy))
      (List.forall_mem_append.mpr ⟨hrest, by simpa using hnew⟩)
    exact List.forall_mem_cons.mpr ⟨hnew, hout⟩
  | pop _ ih =>
    obtain ⟨hhead, htail⟩ := List.forall_mem_cons.mp hrest
    exact ih hhead (List.Subset.refl _) htail
  | stop => simp

theorem derived (h : Search succ key extend vis e xs rest out)
    (hroot : Derived succ key extend root e) (hxs : xs ⊆ succ (key e))
    (hrest : ∀ r ∈ rest, Derived succ key extend root r) :
    ∀ r ∈ out, Derived succ key extend root r :=
  h.forall_out (fun _ _ he hx => .step he hx) hroot hxs hrest

theorem nodup (h : Search succ key extend vis e xs rest out)
    (hkey : ∀ e x, key (extend e x) = x.2) :
    (out.map key).Nodup ∧ ∀ r ∈ out, key r ∉ vis := by
  induction h with
  | skip _ _ ih => exact ih
  | @take vis e x xs rest out hx _ ih =>
    obtain ⟨hnodup, hnew⟩ := ih
    rw [List.map_cons, List.nodup_cons, hkey, List.forall_mem_cons, hkey]
    refine ⟨⟨fun hmem => ?_, hnodup⟩, hx, fun r hr hvis => hnew r hr (Set.mem_insert_of_mem _ hvis)⟩
    obtain ⟨r, hr, hreq⟩ := List.mem_map.mp hmem
    exact hnew r hr (hreq ▸ Set.mem_insert _ _)
  | pop _ ih => exact ih
  | stop => simp

theorem keys_mem (h : Search succ key extend vis e xs rest out) (U : Finset V)
    (hU : ∀ v ∈ U, ∀ x ∈ succ v, x.2 ∈ U) (hkey : ∀ e x, key (extend e x) = x.2)
    (hxs : ∀ x ∈ xs, x.2 ∈ U) (hrest : ∀ r ∈ rest, key r ∈ U) : ∀ r ∈ out, key r ∈ U := by
  induction h with
  | skip _ _ ih => exact ih (fun y hy => hxs y (List.mem_cons_of_mem _ hy)) hrest
  | @take vis e x xs rest out _ _ ih =>
    have hnew : key (extend e x) ∈ U := by
      rw [hkey]
      exact hxs x List.mem_cons_self
    have hout := ih (fun y hy => hxs y (List.mem_cons_of_mem _ hy))
      (List.forall_mem_append.mpr ⟨hrest, by simpa using hnew⟩)
    exact List.forall_mem_cons.mpr ⟨hnew, hout⟩
  | pop _ ih =>
    obtain ⟨hhead, htail⟩ := List.forall_mem_cons.mp hrest
    exact ih (hU _ hhead) htail
  | stop => simp

theorem length_le [DecidableEq V] (h : Search succ key extend vis e xs rest out) (U : Finset V)
    (hU : ∀ v ∈ U, ∀ x ∈ succ v, x.2 ∈ U) (hkey : ∀ e x, key (extend e x) = x.2)
    (hxs : ∀ x ∈ xs, x.2 ∈ U) (hrest : ∀ r ∈ rest, key r ∈ U) :
    out.length ≤ U.card := by
  have hcard := List.toFinset_card_of_nodup (h.nodup hkey).1
  rw [List.length_map] at hcard
  rw [← hcard]
  apply Finset.card_le_card
  intro v hv
  obtain ⟨r, hr, rfl⟩ := List.mem_map.mp (List.mem_toFinset.mp hv)
  exact h.keys_mem U hU hkey hxs hrest r hr

/-- Some entry of a list stands for `v` at a depth of at most `n`. -/
def Within (key : E → V) (depth : E → Nat) (found : List E) (n : Nat) (v : V) : Prop :=
  ∃ f ∈ found, key f = v ∧ depth f ≤ n

section Depth

variable {depth : E → Nat} {blocked : Set V} {found : List E}

theorem Within.mono {found' : List E} {m n : Nat} {v : V} (hsub : found ⊆ found') (hle : m ≤ n)
    (h : Within key depth found m v) : Within key depth found' n v := by
  obtain ⟨f, hf, hv, hd⟩ := h
  exact ⟨f, hsub hf, hv, hd.trans hle⟩

/-- The queue is ordered by depth and nothing found is deeper than the successors of the
entry in expansion: so the successors of an entry are found at most one level below it. -/
theorem successors_within (h : Search succ key extend vis e xs rest out)
    (hkey : ∀ e x, key (extend e x) = x.2)
    (hdepth : ∀ e x, depth (extend e x) = depth e + 1)
    (hvis : ∀ v, v ∈ vis → v ∈ blocked ∨ ∃ f ∈ found, key f = v)
    (hfound : ∀ f ∈ found, depth f ≤ depth e + 1)
    (hrest : ∀ r ∈ rest, r ∈ found ∧ depth e ≤ depth r) (hsorted : rest.Pairwise (depth · ≤ depth ·)) :
    (∀ x ∈ xs, x.2 ∈ blocked ∨ Within key depth (found ++ out) (depth e + 1) x.2) ∧
      ∀ u ∈ rest ++ out, ∀ x ∈ succ (key u),
        x.2 ∈ blocked ∨ Within key depth (found ++ out) (depth u + 1) x.2 := by
  induction h generalizing found with
  | @skip vis e x xs rest out hx _ ih =>
    obtain ⟨hxs, hout⟩ := ih hvis hfound hrest hsorted
    refine ⟨List.forall_mem_cons.mpr ⟨?_, hxs⟩, hout⟩
    rcases hvis _ hx with hb | ⟨f, hf, hfv⟩
    · exact .inl hb
    · exact .inr ⟨f, List.mem_append_left _ hf, hfv, hfound f hf⟩
  | @take vis e x xs rest out hx _ ih =>
    have hnew : depth (extend e x) = depth e + 1 := hdepth e x
    have hvis' : ∀ v, v ∈ insert x.2 vis → v ∈ blocked ∨ ∃ f ∈ found ++ [extend e x], key f = v := by
      intro v hv
      rcases hv with rfl | hv
      · exact .inr ⟨extend e x, by simp, hkey e x⟩
      · rcases hvis v hv with hb | ⟨f, hf, hfv⟩
        · exact .inl hb
        · exact .inr ⟨f, List.mem_append_left _ hf, hfv⟩
    have hfound' : ∀ f ∈ found ++ [extend e x], depth f ≤ depth e + 1 :=
      List.forall_mem_append.mpr ⟨hfound, by simp [hnew]⟩
    have hrest' : ∀ r ∈ rest ++ [extend e x], r ∈ found ++ [extend e x] ∧ depth e ≤ depth r :=
      List.forall_mem_append.mpr
        ⟨fun r hr => ⟨List.mem_append_left _ (hrest r hr).1, (hrest r hr).2⟩, by simp [hnew]⟩
    have hsorted' : (rest ++ [extend e x]).Pairwise (depth · ≤ depth ·) := by
      rw [List.pairwise_append]
      refine ⟨hsorted, List.pairwise_singleton _ _, fun r hr r' hr' => ?_⟩
      rw [List.mem_singleton.mp hr', hnew]
      exact hfound r (hrest r hr).1
    obtain ⟨hxs, hout⟩ := ih hvis' hfound' hrest' hsorted'
    rw [List.append_assoc, List.singleton_append] at hxs hout
    rw [List.append_assoc] at hout
    refine ⟨List.forall_mem_cons.mpr ⟨.inr ⟨extend e x, by simp, hkey e x, hnew.le⟩, hxs⟩, hout⟩
  | @pop vis e e' rest out _ ih =>
    obtain ⟨⟨hmem, hle⟩, htail⟩ := List.forall_mem_cons.mp hrest
    obtain ⟨hhead, hsorted⟩ := List.pairwise_cons.mp hsorted
    obtain ⟨hxs, hout⟩ := ih hvis (fun f hf => (hfound f hf).trans (by omega))
      (fun r hr => ⟨(htail r hr).1, hhead r hr⟩) hsorted
    exact ⟨by simp, List.forall_mem_cons.mpr ⟨hxs, hout⟩⟩
  | stop => simp

theorem sorted (h : Search succ key extend vis e xs rest out)
    (hdepth : ∀ e x, depth (extend e x) = depth e + 1)
    (hrest : ∀ r ∈ rest, depth e ≤ depth r ∧ depth r ≤ depth e + 1)
    (hsorted : rest.Pairwise (depth · ≤ depth ·)) :
    (rest ++ out).Pairwise (depth · ≤ depth ·) ∧ ∀ r ∈ rest ++ out, depth e ≤ depth r := by
  induction h with
  | skip _ _ ih => exact ih hrest hsorted
  | @take vis e x xs rest out _ _ ih =>
    have hnew : depth (extend e x) = depth e + 1 := hdepth e x
    have hsorted' : (rest ++ [extend e x]).Pairwise (depth · ≤ depth ·) := by
      rw [List.pairwise_append]
      refine ⟨hsorted, List.pairwise_singleton _ _, fun r hr r' hr' => ?_⟩
      rw [List.mem_singleton.mp hr', hnew]
      exact (hrest r hr).2
    have hout := ih (List.forall_mem_append.mpr ⟨hrest, by simp [hnew]⟩) hsorted'
    rwa [List.append_assoc, List.singleton_append] at hout
  | @pop vis e e' rest out _ ih =>
    obtain ⟨⟨hle, hle'⟩, htail⟩ := List.forall_mem_cons.mp hrest
    obtain ⟨hhead, hsorted⟩ := List.pairwise_cons.mp hsorted
    obtain ⟨hout, hmin⟩ := ih (fun r hr => ⟨hhead r hr, by have := (htail r hr).2; omega⟩) hsorted
    refine ⟨List.pairwise_cons.mpr ⟨hmin, hout⟩, ?_⟩
    exact List.forall_mem_cons.mpr ⟨hle, fun r hr => hle.trans (hmin r hr)⟩
  | stop => simp

/-- Every vertex that a path reaches without entering `blocked` is found, at a depth that the
path bounds. -/
theorem found_of_run
    (h : Search succ key extend (insert (key root) blocked) root (succ (key root)) [] out)
    (hkey : ∀ e x, key (extend e x) = x.2) (hdepth : ∀ e x, depth (extend e x) = depth e + 1)
    {w : List L} {v : V}
    (hw : Run (fun u l v => (l, v) ∈ succ u ∧ v ∉ blocked) (key root) w v) :
    Within key depth (root :: out) (depth root + w.length) v := by
  have hvis : ∀ v ∈ insert (key root) blocked, v ∈ blocked ∨ ∃ r ∈ [root], key r = v :=
    fun v hv => by simpa [or_comm, eq_comm] using hv
  obtain ⟨hroot, hout⟩ := h.successors_within hkey hdepth hvis (by simp) (by simp) .nil
  have hall : ∀ u ∈ root :: out, ∀ x ∈ succ (key u),
      x.2 ∈ blocked ∨ Within key depth (root :: out) (depth u + 1) x.2 :=
    List.forall_mem_cons.mpr ⟨hroot, hout⟩
  -- along the path, one level for each step
  induction w using List.reverseRecOn generalizing v with
  | nil =>
    obtain rfl := Run.nil_iff.mp hw
    exact ⟨root, by simp, rfl, by simp⟩
  | append_singleton w l ih =>
    obtain ⟨u, hu, hstep, hv⟩ := Run.concat_iff.mp hw
    obtain ⟨f, hf, rfl, hle⟩ := ih hu
    rcases hall f hf _ hstep with hb | hwithin
    · exact absurd hb hv
    · exact hwithin.mono (List.Subset.refl _) (by simp; omega)

end Depth

end Search

end MillenniumDB
