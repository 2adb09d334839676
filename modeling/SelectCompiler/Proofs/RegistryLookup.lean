import Mathlib
import SelectCompiler.Registry

/-!
Registries as records of what was registered. A registry keeps its entries in order and one for each
id, whatever the case of its letters; after any calls, what it finds under an id is the last dialect
that was registered under it, and otherwise under the id of the database that goes by that name.
-/

namespace SelectCompiler

namespace Registry

/-! ### Entries in their places -/

variable {key k : String} {d : Dialect} {entries : List (String × Dialect)}

/-- Entries in the order of their keys, each key once. -/
abbrev Ordered (entries : List (String × Dialect)) : Prop :=
  entries.Pairwise (·.1 < ·.1)

theorem mem_keys_insertEntry :
    k ∈ (insertEntry key d entries).map (·.1) ↔ k = key ∨ k ∈ entries.map (·.1) := by
  induction entries with
  | nil => simp [insertEntry]
  | cons entry entries ih =>
    unfold insertEntry
    split
    · next same => simp [same]
    · split
      · simp
      · simp only [List.map_cons, List.mem_cons, ih]
        exact or_left_comm

theorem ordered_insertEntry (h : Ordered entries) : Ordered (insertEntry key d entries) := by
  induction entries with
  | nil => exact List.pairwise_singleton _ _
  | cons entry entries ih =>
    obtain ⟨first, rest⟩ := List.pairwise_cons.1 h
    unfold insertEntry
    split
    · next same => exact List.pairwise_cons.2 ⟨fun e he => same ▸ first e he, rest⟩
    · next other =>
      split
      · next before =>
        refine List.pairwise_cons.2 ⟨fun e he => ?_, h⟩
        rcases List.mem_cons.1 he with rfl | he
        · exact before
        · exact before.trans (first e he)
      · next behind =>
        have after : entry.1 < key := lt_of_le_of_ne (not_lt.1 behind) (Ne.symm other)
        refine List.pairwise_cons.2 ⟨fun e he => ?_, ih rest⟩
        rcases mem_keys_insertEntry.1 (List.mem_map_of_mem he) with same | he
        · exact same ▸ after
        · obtain ⟨e', he', same⟩ := List.mem_map.1 he
          exact same ▸ first e' he'

theorem find?_insertEntry :
    (insertEntry key d entries).find? (·.1 == k) =
      if key = k then some (key, d) else entries.find? (·.1 == k) := by
  induction entries with
  | nil => by_cases same : key = k <;> simp [insertEntry, same]
  | cons entry entries ih =>
    unfold insertEntry
    split
    · next taken => by_cases same : key = k <;> simp [same, ← taken]
    · next apart =>
      split
      · by_cases same : key = k <;> simp [same]
      · rw [List.find?_cons, List.find?_cons, ih]
        split
        · next found => rw [if_neg fun same => apart (same.trans (eq_of_beq found).symm)]
        · rfl

/-- Where the walk stops, behind the entries of smaller keys, an entry of this key would have been
met. -/
theorem displaced?_eq (h : Ordered entries) :
    displaced? key entries = (entries.find? (·.1 == key)).map (·.2) := by
  induction entries with
  | nil => rfl
  | cons entry entries ih =>
    obtain ⟨first, rest⟩ := List.pairwise_cons.1 h
    unfold displaced?
    split
    · next same => simp [same]
    · next other =>
      rw [List.find?_cons_of_neg (by simpa using Ne.symm other)]
      split
      · next before =>
        have absent : entries.find? (·.1 == key) = none := by
          refine List.find?_eq_none.2 fun e he same => ?_
          exact lt_irrefl key (before.trans (eq_of_beq same ▸ first e he))
        rw [absent]
        rfl
      · exact ih rest

/-! ### Single calls -/

variable {r : Registry} {id other : String}

theorem find?_register :
    (r.register id d).find? other = if fold id = fold other then some d else r.find? other := by
  rw [find?, register, find?_insertEntry]
  split <;> rfl

theorem mem_ids_register : k ∈ (r.register id d).ids ↔ k = fold id ∨ k ∈ r.ids :=
  mem_keys_insertEntry

theorem replace_eq (h : Ordered r.entries) : r.replace id d = (r.find? id, r.register id d) := by
  rw [replace, displaced?_eq h, find?]

theorem isUpper_of_mem_fold {c : Char} (h : c ∈ (fold id).toList) : c.isUpper = false := by
  rw [fold, String.toLower, String.toList_map] at h
  obtain ⟨c, -, rfl⟩ := List.mem_map.1 h
  exact c.isUpper_toLower_eq_false

/-! ### Calls one after the other -/

/-- Registers dialects, each under its id, one after the other. -/
def registerAll (r : Registry) (calls : List (String × Dialect)) : Registry :=
  calls.foldl (fun r call => r.register call.1 call.2) r

/-- The databases under their ids. -/
def standardCalls : List (String × Dialect) := Database.all.map fun db => (db.id, db.dialect)

theorem registerAll_standardCalls : empty.registerAll standardCalls = builtIn := rfl

/-- Ids that differ at most by the case of ASCII letters. -/
def SameId (id other : String) : Prop := id.toLower = other.toLower

instance (id other : String) : Decidable (SameId id other) := inferInstanceAs (Decidable (_ = _))

/-- The dialect of the last call for an id. -/
def latest? (calls : List (String × Dialect)) (id : String) : Option Dialect :=
  (calls.reverse.find? fun call => SameId call.1 id).map (·.2)

variable {calls more : List (String × Dialect)}

theorem latest?_concat :
    latest? (calls ++ [(id, d)]) other = if SameId id other then some d else latest? calls other := by
  rw [latest?, List.reverse_concat, List.find?_cons]
  by_cases same : SameId id other <;> simp [same, latest?]

theorem latest?_congr (same : SameId id other) : latest? calls id = latest? calls other := by
  have alike (call : String × Dialect) : SameId call.1 id ↔ SameId call.1 other := by
    rw [SameId, same, SameId]
  simp only [latest?, alike]

theorem exists_call_of_latest? (h : latest? calls id = some d) :
    ∃ call ∈ calls, SameId call.1 id ∧ call.2 = d := by
  obtain ⟨call, found, last⟩ := Option.map_eq_some_iff.1 h
  have same := List.find?_some found
  exact ⟨call, List.mem_reverse.1 (List.mem_of_find?_eq_some found), of_decide_eq_true same, last⟩

/-- What calls leave in a registry: entries in order, the last dialect for each id, and the ids that
were called for. -/
structure Records (calls : List (String × Dialect)) (r : Registry) : Prop where
  ordered : Ordered r.entries
  find?_eq : ∀ id, r.find? id = latest? calls id
  mem_ids : ∀ key, key ∈ r.ids ↔ ∃ call ∈ calls, call.1.toLower = key

namespace Records

theorem empty : Records [] empty where
  ordered := .nil
  find?_eq _ := rfl
  mem_ids _ := by simp [Registry.empty, ids]

theorem register (h : Records calls r) (id : String) (d : Dialect) :
    Records (calls ++ [(id, d)]) (r.register id d) where
  ordered := ordered_insertEntry h.ordered
  find?_eq other := by
    rw [find?_register, latest?_concat, h.find?_eq]
    rfl
  mem_ids key := by
    rw [mem_ids_register, h.mem_ids]
    simp only [List.mem_append, List.mem_singleton, or_and_right, exists_or, exists_eq_left]
    exact or_comm.trans (or_congr_right eq_comm)

theorem registerAll (h : Records calls r) : Records (calls ++ more) (r.registerAll more) := by
  induction more generalizing calls r with
  | nil => rwa [List.append_nil]
  | cons call more ih =>
    -- the next call is one of those that the registry has a record of
    rw [List.append_cons]
    exact ih (h.register call.1 call.2)

end Records

/-- An id that nothing is registered under, and that names the database of another id. -/
def FallsBack (calls : List (String × Dialect)) (other id : String) : Prop :=
  latest? calls other = none ∧ ∃ db, Database.ofName? other = some db ∧ SameId id db.id

/-- All that can be asked of a registry, after calls. -/
structure Answers (calls : List (String × Dialect)) (r : Registry) : Prop where
  get_latest : ∀ {id d}, latest? calls id = some d → r.get id = .ok d
  get_alias : ∀ {id db d}, latest? calls id = none → Database.ofName? id = some db →
    latest? calls db.id = some d → r.get id = .ok d
  get_unknown : ∀ {id}, latest? calls id = none →
    (∀ db, Database.ofName? id = some db → latest? calls db.id = none) →
    r.get id = .error (.unknownDialect id)
  find?_eq : ∀ id, r.find? id = latest? calls id
  replace_eq : ∀ id d, r.replace id d = (r.find? id, r.register id d)
  ids_increasing : r.ids.Pairwise (· < ·)
  ids_lower : ∀ id ∈ r.ids, ∀ c ∈ id.toList, c.isUpper = false
  mem_ids : ∀ key, key ∈ r.ids ↔ ∃ call ∈ calls, call.1.toLower = key
  get_register : ∀ {id other} d, ¬ SameId id other → ¬ FallsBack calls other id →
    (r.register id d).get other = r.get other

theorem get_register_of_not_fallsBack (h : Records calls r) (apart : ¬ SameId id other)
    (stays : ¬ FallsBack calls other id) : (r.register id d).get other = r.get other := by
  have own : (r.register id d).find? other = r.find? other := by
    rw [find?_register]
    exact if_neg apart
  rw [get, get, own]
  cases found : r.find? other with
  | some _ => rfl
  | none =>
    cases name : Database.ofName? other with
    | none => rfl
    | some db =>
      -- what is kept under the id of the database decides, and the call was not for that one
      have aside : ¬ SameId id db.id :=
        fun same => stays ⟨(h.find?_eq other).symm.trans found, db, name, same⟩
      have reached : (r.register id d).find? db.id = r.find? db.id := by
        rw [find?_register]
        exact if_neg aside
      rw [Option.bind_some, Option.bind_some, reached]

theorem Records.answers (h : Records calls r) : Answers calls r where
  get_latest latest := by rw [get, h.find?_eq, latest]
  get_alias own name latest := by
    rw [get, h.find?_eq, own, name, Option.bind_some, h.find?_eq, latest]
  get_unknown {id} own unnamed := by
    have nothing : (Database.ofName? id).bind (fun db => r.find? db.id) = none := by
      refine Option.bind_eq_none_iff.2 fun db name => ?_
      rw [h.find?_eq, unnamed db name]
    rw [get, h.find?_eq, own, nothing]
  find?_eq := h.find?_eq
  replace_eq _ _ := replace_eq h.ordered
  ids_increasing := List.pairwise_map.2 h.ordered
  ids_lower key listed c hc := by
    obtain ⟨call, -, rfl⟩ := (h.mem_ids key).1 listed
    exact isUpper_of_mem_fold hc
  mem_ids := h.mem_ids
  get_register _ := get_register_of_not_fallsBack h

/-! ### The databases -/

theorem ofName?_of_toLower_eq_id {name : String} {db : Database} (h : name.toLower = db.id) :
    Database.ofName? name = some db := by
  rw [Database.ofName?, h]
  cases db <;> rfl

theorem toLower_id (db : Database) : db.id.toLower = db.id := by
  cases db <;> cbv

theorem ofName?_of_sameId {db : Database} (h : SameId db.id id) : Database.ofName? id = some db :=
  ofName?_of_toLower_eq_id (h.symm.trans (toLower_id db))

theorem sameId_id_iff {db db' : Database} : SameId db.id db'.id ↔ db = db' := by
  refine ⟨fun same => ?_, fun same => same ▸ rfl⟩
  exact Option.some.inj ((ofName?_of_sameId same).symm.trans (ofName?_of_sameId rfl))

/-- Calls for every database, each under its id, and for nothing else. -/
structure OfDatabases (calls : List (String × Dialect)) (dialect : Database → Dialect) : Prop where
  latest : ∀ db : Database, latest? calls db.id = some (dialect db)
  only : ∀ call ∈ calls, ∃ db : Database, call.1 = db.id

namespace OfDatabases

variable {dialect : Database → Dialect} {db : Database}

theorem exists_of_latest? (h : OfDatabases calls dialect) (own : latest? calls id = some d) :
    ∃ db, Database.ofName? id = some db ∧ d = dialect db := by
  obtain ⟨call, called, same, -⟩ := exists_call_of_latest? own
  obtain ⟨db, named⟩ := h.only call called
  rw [named] at same
  rw [← latest?_congr same, h.latest] at own
  exact ⟨db, ofName?_of_sameId same, (Option.some.inj own).symm⟩

theorem standard : OfDatabases standardCalls Database.dialect where
  latest db := by cases db <;> cbv
  only call called := by
    obtain ⟨db, -, rfl⟩ := List.mem_map.1 called
    exact ⟨db, rfl⟩

theorem mem_ids_iff (h : OfDatabases calls dialect) (records : Records calls r) :
    key ∈ r.ids ↔ ∃ db : Database, key = db.id := by
  rw [records.mem_ids]
  constructor
  · rintro ⟨call, called, rfl⟩
    obtain ⟨db, named⟩ := h.only call called
    exact ⟨db, named ▸ toLower_id db⟩
  · rintro ⟨db, rfl⟩
    obtain ⟨call, called, same, -⟩ := exists_call_of_latest? (h.latest db)
    exact ⟨call, called, same.trans (toLower_id db)⟩

theorem get_of_ofName? (h : OfDatabases calls dialect) (records : Records calls r)
    (name : Database.ofName? id = some db) : r.get id = .ok (dialect db) := by
  cases own : latest? calls id with
  | none => exact records.answers.get_alias own name (h.latest db)
  | some d =>
    obtain ⟨db', name', rfl⟩ := h.exists_of_latest? own
    obtain rfl := Option.some.inj (name.symm.trans name')
    exact records.answers.get_latest own

theorem get_of_ofName?_eq_none (h : OfDatabases calls dialect) (records : Records calls r)
    (unnamed : Database.ofName? id = none) : r.get id = .error (.unknownDialect id) := by
  refine records.answers.get_unknown ?_ fun db name => ?_
  · refine Option.eq_none_iff_forall_ne_some.2 fun d own => ?_
    obtain ⟨db, name, -⟩ := h.exists_of_latest? own
    rw [name] at unnamed
    cases unnamed
  · rw [name] at unnamed
    cases unnamed

theorem get_eq_ok_iff (h : OfDatabases calls dialect) (records : Records calls r) :
    r.get id = .ok d ↔ ∃ db, Database.ofName? id = some db ∧ d = dialect db := by
  constructor
  · intro got
    cases name : Database.ofName? id with
    | none =>
      rw [h.get_of_ofName?_eq_none records name] at got
      cases got
    | some db =>
      rw [h.get_of_ofName? records name] at got
      exact ⟨db, rfl, (Except.ok.inj got).symm⟩
  · rintro ⟨db, name, rfl⟩
    exact h.get_of_ofName? records name

end OfDatabases

theorem records_builtIn : Records standardCalls builtIn :=
  registerAll_standardCalls ▸ Records.empty.registerAll

theorem builtIn_get_eq_ok_iff :
    builtIn.get id = .ok d ↔ ∃ db, Database.ofName? id = some db ∧ d = db.dialect ∧ d.name = db.id := by
  rw [OfDatabases.standard.get_eq_ok_iff records_builtIn]
  refine exists_congr fun db => and_congr_right fun _ => ?_
  exact ⟨fun same => ⟨same, by rw [same]; cases db <;> rfl⟩, And.left⟩

/-- Whatever is registered, in whatever order, a registry answers for the last call of each id; and
the names of databases are the ids that one with nothing else knows. -/
theorem registerAll_answers (calls : List (String × Dialect)) :
    Answers calls (empty.registerAll calls) ∧
      Answers (standardCalls ++ calls) (builtIn.registerAll calls) ∧
      ∀ id d, builtIn.get id = .ok d ↔
        ∃ db, Database.ofName? id = some db ∧ d = db.dialect ∧ d.name = db.id :=
  ⟨(Records.empty.registerAll : Records ([] ++ calls) _).answers, records_builtIn.registerAll.answers,
    fun _ _ => builtIn_get_eq_ok_iff⟩

theorem registerAll_answers_shadowedAlias :
    let r := builtIn.registerAll [("PG", .sqlite), ("Postgres", .mysql)]
    r.get "pg" = .ok .sqlite ∧ r.get "PostgreSQL" = .ok .mysql ∧
      r.get "Db2" = .error (.unknownDialect "Db2") ∧
      (r.replace "postgres" .oracle).1 = some .mysql := by
  intro r
  have answers : Answers (standardCalls ++ [("PG", .sqlite), ("Postgres", .mysql)]) r :=
    (registerAll_answers [("PG", .sqlite), ("Postgres", .mysql)]).2.1
  have apart : ¬ SameId "Postgres" "pg" := by decide +kernel
  have same : SameId "PG" "pg" := by cbv
  have canonical : SameId "Postgres" Database.postgres.id := by cbv
  have own : latest? (standardCalls ++ [("PG", .sqlite), ("Postgres", .mysql)]) "pg" =
      some .sqlite := by
    rw [List.append_cons, latest?_concat, if_neg apart, latest?_concat, if_pos same]
  have last : latest? (standardCalls ++ [("PG", .sqlite), ("Postgres", .mysql)])
      Database.postgres.id = some .mysql := by
    rw [List.append_cons, latest?_concat, if_pos canonical]
  have named : Database.ofName? "PostgreSQL" = some .postgres := by cbv
  have unnamed : Database.ofName? "Db2" = none := by cbv
  refine ⟨answers.get_latest own, answers.get_alias (by cbv) named last,
    answers.get_unknown (by cbv) fun db name => ?_, ?_⟩
  · rw [unnamed] at name
    cases name
  · exact (congrArg Prod.fst (answers.replace_eq _ _)).trans ((answers.find?_eq _).trans last)

end Registry

end SelectCompiler
