import MillenniumDB.ImportIndexes
import MillenniumDB.ImportRecords
import Mathlib.Data.List.Chain

/-!
# The check of imported trees

`BPlusTreeLeaf::check` wants the records of a leaf in strict order.  Merge sort keeps equal
tuples, so a tree passes only if the collection that it is built from has no record twice.
-/

namespace MillenniumDB

namespace BPlusTreeLeaf

def notFound : Nat := 0xFFFFFFFFFFFFFFFF

def checkOrder (x : Tuple) : List Tuple → Bool
  | [] => true
  | y :: rest => if y ≤ x then false else checkOrder y rest

/-- `check` of a leaf.  The search for `notFound` only looks at the first record. -/
def check (pageNumber : Nat) (page : LeafPage) : Bool :=
  match page.records.take page.valueCount with
  | [] => pageNumber = 0
  | x :: rest => !x.contains notFound && checkOrder x rest

theorem checkOrder_iff {x : Tuple} {rest : List Tuple} :
    checkOrder x rest = true ↔ (x :: rest).Pairwise (· < ·) := by
  rw [← List.isChain_iff_pairwise]
  induction rest generalizing x with
  | nil => simp [checkOrder]
  | cons y rest ih =>
    rw [checkOrder, List.isChain_cons_cons]
    by_cases hle : y ≤ x
    · simp [hle]
    · rw [if_neg hle, ih, iff_and_self]
      exact fun _ => not_le.mp hle

end BPlusTreeLeaf

theorem take_drop_flatten {α : Type} {m : Nat} {parts : List (List α)}
    (hfull : ∀ p part, parts[p]? = some part → p + 1 < parts.length → part.length = m)
    (hle : ∀ part ∈ parts, part.length ≤ m) {p : Nat} {part : List α}
    (hp : parts[p]? = some part) : (parts.flatten.drop (p * m)).take m = part := by
  induction parts generalizing p with
  | nil => cases hp
  | cons first parts ih =>
    cases p with
    | zero =>
      obtain rfl : first = part := Option.some.inj hp
      rw [Nat.zero_mul, List.drop_zero, List.flatten_cons]
      cases parts with
      | nil => simpa using hle first List.mem_cons_self
      | cons second parts =>
        have hlen := hfull 0 first rfl (by simp)
        rw [← hlen, List.take_left]
    | succ p =>
      have hlt : p + 1 < (first :: parts).length := (List.getElem?_eq_some_iff.mp hp).1
      have hlen := hfull 0 first rfl (by omega)
      have hdrop : (first :: parts).flatten.drop ((p + 1) * m) = parts.flatten.drop (p * m) := by
        rw [List.flatten_cons, Nat.succ_mul, Nat.add_comm, ← List.drop_drop, ← hlen,
          List.drop_left]
      rw [hdrop]
      apply ih
      · intro q part hq hlast
        exact hfull (q + 1) part hq (by simpa using hlast)
      · exact fun part hpart => hle part (List.mem_cons_of_mem _ hpart)
      · exact hp

namespace DiskVector

variable {n : Nat} {records : List Tuple} {leaves : List LeafPage}

theorem Paged.records_eq (h : Paged n records leaves) {p : Nat} {page : LeafPage}
    (hp : leaves[p]? = some page) : page.records =
      (records.drop (p * BPTLeafWriter.maxRecords n)).take (BPTLeafWriter.maxRecords n) := by
  rw [← h.concat, List.flatMap_def]
  refine (take_drop_flatten ?_ ?_ (p := p) ?_).symm
  · intro q part hq hlast
    rw [List.getElem?_map] at hq
    obtain ⟨page', hpage', rfl⟩ := Option.map_eq_some_iff.mp hq
    rw [List.length_map] at hlast
    rw [← h.valueCount page' (List.mem_of_getElem? hpage')]
    exact h.full q page' hpage' hlast
  · intro part hpart
    obtain ⟨page', hpage', rfl⟩ := List.mem_map.mp hpart
    rw [← h.valueCount page' hpage']
    exact h.bounded page' hpage'
  · rw [List.getElem?_map, hp, Option.map_some]

theorem Paged.head? (h : Paged n records leaves) (hmax : 0 < BPTLeafWriter.maxRecords n)
    {p : Nat} {page : LeafPage} (hp : leaves[p]? = some page) :
    page.records.head? = records[p * BPTLeafWriter.maxRecords n]? ∧
      (page.records = [] → p = 0) := by
  have hhead : page.records.head? = records[p * BPTLeafWriter.maxRecords n]? := by
    rw [h.records_eq hp, List.head?_take, if_neg (by omega), List.head?_drop]
  refine ⟨hhead, fun hempty => ?_⟩
  rw [hempty, List.head?_nil] at hhead
  have hle := List.getElem?_eq_none_iff.mp hhead.symm
  have hlt := (List.getElem?_eq_some_iff.mp hp).1
  rw [h.length] at hlt
  by_contra hpos
  rcases Nat.eq_zero_or_pos records.length with hzero | hlen
  · rw [hzero] at hlt
    simp [divisionRoundUp] at hlt
    omega
  · rw [divisionRoundUp_eq hlen] at hlt
    have hdiv : p ≤ (records.length - 1) / BPTLeafWriter.maxRecords n := by omega
    rw [Nat.le_div_iff_mul_le hmax] at hdiv
    omega

theorem Paged.page_of_getElem? (h : Paged n records leaves)
    (hmax : 0 < BPTLeafWriter.maxRecords n) {p : Nat} {record : Tuple}
    (hrecord : records[p * BPTLeafWriter.maxRecords n]? = some record) :
    ∃ page, leaves[p]? = some page := by
  have hlt := (List.getElem?_eq_some_iff.mp hrecord).1
  have hp : p < leaves.length := by
    rw [h.length]
    exact lt_max_of_lt_right (lt_divisionRoundUp hmax hlt)
  exact ⟨leaves[p], List.getElem?_eq_getElem hp⟩

theorem Paged.check_iff (h : Paged n records leaves) (hmax : 0 < BPTLeafWriter.maxRecords n)
    (hrecords : records.Pairwise (· < ·)) :
    (∀ p page, leaves[p]? = some page → BPlusTreeLeaf.check p page = true) ↔
      ∀ p record, records[p * BPTLeafWriter.maxRecords n]? = some record →
        BPlusTreeLeaf.notFound ∉ record := by
  have hpage : ∀ p page, leaves[p]? = some page → (BPlusTreeLeaf.check p page = true ↔
      ∀ record, records[p * BPTLeafWriter.maxRecords n]? = some record →
        BPlusTreeLeaf.notFound ∉ record) := by
    intro p page hp
    obtain ⟨hhead, hempty⟩ := h.head? hmax hp
    have hsublist : page.records.Sublist records := by
      rw [h.records_eq hp]
      exact (List.take_sublist _ _).trans (List.drop_sublist _ _)
    rw [BPlusTreeLeaf.check, h.valueCount page (List.mem_of_getElem? hp), List.take_length, ← hhead]
    cases hcases : page.records with
    | nil => simpa using hempty hcases
    | cons x rest =>
      have horder : BPlusTreeLeaf.checkOrder x rest = true := by
        rw [BPlusTreeLeaf.checkOrder_iff, ← hcases]
        exact hrecords.sublist hsublist
      simp [horder]
  constructor
  · intro hcheck p record hrecord
    obtain ⟨page, hp⟩ := h.page_of_getElem? hmax hrecord
    exact (hpage p page hp).mp (hcheck p page hp) record hrecord
  · exact fun hfirst p page hp => (hpage p page hp).mpr (hfirst p)

end DiskVector

namespace Import

theorem pairwise_lt_sort {records : List Tuple} :
    (DiskVector.sort records).Pairwise (· < ·) ↔ records.Nodup := by
  constructor
  · intro h
    exact (DiskVector.perm_sort records).nodup_iff.mp (h.imp fun hlt => hlt.ne)
  · intro h
    have hnodup := (DiskVector.perm_sort records).nodup_iff.mpr h
    exact (DiskVector.pairwise_sort records).imp₂ (fun _ _ => lt_of_le_of_ne) hnodup

theorem nodup_recordsOf_iff {c : Collections} : (∀ i, (recordsOf c i).Nodup) ↔ c.Distinct := by
  have hmap {α : Type} (f : α → Tuple) (hf : Function.Injective f) (l : List α) :
      (l.map f).Nodup ↔ l.Nodup := List.nodup_map_iff hf
  have h1 : (recordsOf c .nodes).Nodup ↔ c.declaredNodes.Nodup :=
    (hmap _ (fun _ _ h => by simpa using h) _).trans nodup_nodeIds
  constructor
  · intro h
    constructor
    · exact h1.mp (h .nodes)
    · exact (h .nodeLabel).of_map _
    · exact (h .objectKeyValue).of_map _
    · exact (h .fromToTypeEdge).of_map _
    · exact (h .equalFromTo).of_map _
    · exact (h .equalFromType).of_map _
    · exact (h .equalToType).of_map _
    · exact (h .equalFromToType).of_map _
  · intro h i
    cases i with
    | nodes => exact h1.mpr h.declaredNodes
    | labelNode | nodeLabel =>
      exact (hmap _ (fun _ _ h => by simp_all [tuple2, Prod.ext_iff]) _).mpr h.labels
    | objectKeyValue | keyValueObject =>
      exact (hmap _ (fun _ _ h => by simp_all [tuple3, Prod.ext_iff]) _).mpr h.properties
    | fromToTypeEdge | toTypeFromEdge | typeFromToEdge | typeToFromEdge =>
      exact (hmap _ (fun _ _ h => by simp_all [tuple4, Prod.ext_iff]) _).mpr h.edges
    | equalFromTo | equalFromToInverted =>
      exact (hmap _ (fun _ _ h => by simp_all [tuple3, Prod.ext_iff]) _).mpr h.equalFromTo
    | equalFromType | equalFromTypeInverted =>
      exact (hmap _ (fun _ _ h => by simp_all [tuple3, Prod.ext_iff]) _).mpr h.equalFromType
    | equalToType | equalToTypeInverted =>
      exact (hmap _ (fun _ _ h => by simp_all [tuple3, Prod.ext_iff]) _).mpr h.equalToType
    | equalFromToType =>
      exact (hmap _ (fun _ _ h => by simp_all [tuple2, Prod.ext_iff]) _).mpr h.equalFromToType

def Imported.Checked (imported : Imported) : Prop :=
  ∀ i, ((imported.tree i).leaf.flatMap LeafPage.records).Pairwise (· < ·) ∧
    ∀ p page, (imported.tree i).leaf[p]? = some page → BPlusTreeLeaf.check p page = true

def LeavesBeginFound (c : Collections) : Prop :=
  ∀ i p record, (run c i)[p * BPTLeafWriter.maxRecords (width i)]? = some record →
    BPlusTreeLeaf.notFound ∉ record

def nodeLine (letter : UInt8) : List Lexeme := [⟨.identifier, [letter]⟩, ⟨.endline, [10]⟩]

def nodeRecords (_ : OnDiskImport) (imported : Imported) : List Tuple :=
  (imported.tree .nodes).leaf.flatMap LeafPage.records

end Import
end MillenniumDB
