import MillenniumDB.InsertFacts

/-!
# Runs of INSERT queries

A database goes through the states that one query after the other leaves, whether it throws or
not.  What every round of an item keeps, under a condition on the item and the state in which the
query gets to it, is kept by the run.
-/

namespace MillenniumDB

open Exec

def stateAfter (x : Exec Unit) (db : Database) : Database :=
  match x db with
  | .ok _ db' => db'
  | .error _ db' => db'

section

variable (strId : Bytes → UInt64)

def afterQuery (db : Database) (opInsert : OpInsert) : Database :=
  stateAfter (execInserts strId opInsert) db

def afterQueries (db : Database) (queries : List OpInsert) : Database :=
  queries.foldl (afterQuery strId) db

def GetsTo (db : Database) (opInsert : OpInsert) (item : Item) (db' : Database) : Prop :=
  ∃ done rest, opInsert.items = done ++ item :: rest ∧
    forM done (Item.insert strId) db = .ok () db'

/-- A condition holds wherever a query of a sequence gets to an item. -/
def Meets (C : Item → Database → Prop) (db : Database) (queries : List OpInsert) : Prop :=
  ∀ done opInsert rest, queries = done ++ opInsert :: rest →
    ∀ item db', GetsTo strId (afterQueries strId db done) opInsert item db' → C item db'

variable {strId} {C C' : Item → Database → Prop} {P : Database → Prop} {db : Database}
  {opInsert : OpInsert} {queries : List OpInsert}

theorem Meets.imp (h : Meets strId C db queries) (hC : ∀ item db, C item db → C' item db) :
    Meets strId C' db queries :=
  fun done opInsert rest hqueries item db' hgets =>
    hC item db' (h done opInsert rest hqueries item db' hgets)

theorem Meets.head (h : Meets strId C db (opInsert :: queries)) {done rest : List Item} {item : Item}
    {db' : Database} (hitems : opInsert.items = done ++ item :: rest)
    (hdone : forM done (Item.insert strId) db = .ok () db') : C item db' :=
  h [] opInsert queries rfl item db' ⟨done, rest, hitems, hdone⟩

theorem Meets.tail (h : Meets strId C db (opInsert :: queries)) :
    Meets strId C (afterQuery strId db opInsert) queries :=
  fun done opInsert' rest hqueries => h (opInsert :: done) opInsert' rest (congrArg _ hqueries)

theorem meets_single {item : Item} (hitems : opInsert.items = [item]) (hC : C item db) :
    Meets strId C db [opInsert] := by
  intro done opInsert' rest hqueries item' db' hgets
  rcases List.singleton_eq_append_iff.mp hqueries with ⟨rfl, hsingle⟩ | ⟨-, hnil⟩
  · obtain rfl := (List.cons.inj hsingle).1
    obtain ⟨before, behind, hitems', hbefore⟩ := hgets
    rcases List.singleton_eq_append_iff.mp (hitems.symm.trans hitems') with ⟨rfl, hsingle⟩ | ⟨-, hnil⟩
    · obtain rfl := (List.cons.inj hsingle).1
      obtain rfl : db = db' := (EStateM.Result.ok.inj hbefore).2
      exact hC
    · cases hnil
  · cases hnil

theorem stateAfter_forM_cons (item : Item) (items : List Item) (db : Database) :
    stateAfter (forM (item :: items) (Item.insert strId)) db =
      match item.insert strId db with
      | .ok _ db' => stateAfter (forM items (Item.insert strId)) db'
      | .error _ db' => db' := by
  rw [stateAfter, List.forM_cons]
  simp only [bind, EStateM.bind]
  cases item.insert strId db <;> rfl

theorem keeps_items (hstep : ∀ item db, P db → C item db → P (stateAfter (item.insert strId) db))
    (items : List Item) (hP : P db)
    (hC : ∀ done item rest db', items = done ++ item :: rest →
      forM done (Item.insert strId) db = .ok () db' → C item db') :
    P (stateAfter (forM items (Item.insert strId)) db) := by
  induction items generalizing db with
  | nil => exact hP
  | cons item items ih =>
    have hitem := hstep item db hP (hC [] item items db rfl rfl)
    rw [stateAfter_forM_cons]
    rw [stateAfter] at hitem
    cases hinsert : item.insert strId db with
    | error e db' =>
      -- the exception ends the loop, and what was written before it stays
      rw [hinsert] at hitem
      exact hitem
    | ok u db' =>
      rw [hinsert] at hitem
      apply ih hitem
      intro done item' rest db'' hitems hdone
      exact hC (item :: done) item' rest db'' (congrArg _ hitems)
        ((forM_cons_ok hinsert).trans hdone)

theorem keeps_afterQuery
    (hstep : ∀ item db, P db → C item db → P (stateAfter (item.insert strId) db))
    (opInsert : OpInsert) (hP : P db)
    (hC : ∀ item db', GetsTo strId db opInsert item db' → C item db') :
    P (afterQuery strId db opInsert) := by
  rw [afterQuery, execInserts_eq]
  apply keeps_items hstep opInsert.items hP
  intro done item rest db' hitems hdone
  exact hC item db' ⟨done, rest, hitems, hdone⟩

theorem keeps_afterQueries
    (hstep : ∀ item db, P db → C item db → P (stateAfter (item.insert strId) db))
    (queries : List OpInsert) (hP : P db) (hC : Meets strId C db queries) :
    P (afterQueries strId db queries) := by
  induction queries generalizing db with
  | nil => exact hP
  | cons opInsert queries ih =>
    exact ih (keeps_afterQuery hstep opInsert hP (hC [] opInsert queries rfl)) hC.tail

theorem Item.stateAfter_insert (item : Item) (db : Database) :
    (∃ e, item.fact strId = .error e ∧ stateAfter (item.insert strId) db = db) ∨
      ∃ fact ws₁ ws₂, item.fact strId = .ok fact ∧
        fact.writes db.catalog.connectionsCount = ws₁ ++ ws₂ ∧
          Fresh (rowsOf ws₁) db ∧ stateAfter (item.insert strId) db = applyWrites ws₁ db ∧
            (ws₂ = [] ∨ ∃ i record rest, ws₂ = .row i record :: rest ∧
              record ∈ (applyWrites ws₁ db).index i) := by
  have hinsert := @Item.insert_eq strId item db
  rw [stateAfter, hinsert]
  cases hfact : item.fact strId with
  | error e => exact .inl ⟨e, rfl, rfl⟩
  | ok fact =>
    refine .inr ⟨fact, ?_⟩
    rcases @runWrites_eq _ db (nodes_notMem_rowsOf fact db.catalog.connectionsCount) with
      ⟨hfresh, hok⟩ | ⟨-, ws₁, i, record, ws₂, hws, hfresh, hrecord, herror⟩
    · exact ⟨_, [], rfl, (List.append_nil _).symm, hfresh, by simp only [hok], .inl rfl⟩
    · exact ⟨ws₁, _, rfl, hws, hfresh, by simp only [herror], .inr ⟨i, record, ws₂, rfl, hrecord⟩⟩

end

end MillenniumDB
