import SelectCompiler.CommandLine.Run
import SelectCompiler.Proofs.Dialects
import SelectCompiler.Proofs.RegistryLookup

/-!
The dialects that a run lists, and the one among them that queries are compiled for. The listing
marks the id that the configuration gives in so many letters; queries are compiled for the database
that goes by the configured name. The two agree exactly if the configuration gives an id as it is
listed, or a name that no dialect goes by.
-/

namespace SelectCompiler

/-! ### Registries of configurations -/

namespace Config

open Registry

variable {config : Config} {id : String}

/-- The calls that make up the registry of a configuration. -/
def calls (config : Config) : List (String × Dialect) :=
  standardCalls ++ [(Database.sqlServer.id, .sqlServer config.defaultSchema)]

theorem records_registry (config : Config) : Records config.calls config.registry :=
  records_builtIn.register _ _

theorem ofDatabases_calls (config : Config) :
    OfDatabases config.calls (·.dialectWith config.defaultSchema) where
  latest db := by
    rw [calls, latest?_concat, OfDatabases.standard.latest]
    by_cases same : Database.sqlServer = db
    · subst same
      exact if_pos rfl
    · rw [if_neg (same ∘ sameId_id_iff.1)]
      cases db <;> first | rfl | exact absurd rfl same
  only call called := by
    rcases List.mem_append.1 called with called | called
    · exact OfDatabases.standard.only call called
    · exact ⟨.sqlServer, congrArg Prod.fst (List.mem_singleton.1 called)⟩

theorem mem_ids_registry : id ∈ config.registry.ids ↔ ∃ db : Database, id = db.id :=
  config.ofDatabases_calls.mem_ids_iff config.records_registry

theorem find?_registry (config : Config) (db : Database) :
    config.registry.find? db.id = some (db.dialectWith config.defaultSchema) :=
  (config.records_registry.find?_eq _).trans (config.ofDatabases_calls.latest db)

/-- The ids whose dialect a query is compiled for if it asks for none. -/
def usedIds (config : Config) : List String :=
  match config.registry.get config.dialect with
  | .ok d => config.registry.ids.filter fun id => config.registry.find? id = some d
  | .error _ => []

variable {db : Database}

theorem ofName?_of_mem_ids (h : config.dialect ∈ config.registry.ids) :
    ∃ db : Database, config.dialect = db.id ∧ Database.ofName? config.dialect = some db := by
  obtain ⟨db, same⟩ := mem_ids_registry.1 h
  exact ⟨db, same, ofName?_of_sameId (congrArg String.toLower same.symm)⟩

theorem get_registry (name : Database.ofName? id = some db) :
    config.registry.get id = .ok (db.dialectWith config.defaultSchema) :=
  config.ofDatabases_calls.get_of_ofName? config.records_registry name

theorem usedIds_of_ofName? (name : Database.ofName? config.dialect = some db) :
    config.usedIds = config.registry.ids.filter (· = db.id) := by
  rw [usedIds, get_registry name]
  refine List.filter_congr fun id known => decide_eq_decide.2 ?_
  obtain ⟨db', rfl⟩ := mem_ids_registry.1 known
  rw [find?_registry]
  constructor
  · intro same
    rw [← Database.name_dialectWith config.defaultSchema db', Option.some.inj same,
      Database.name_dialectWith]
  · intro same
    rw [sameId_id_iff.1 (congrArg String.toLower same)]

theorem usedIds_of_ofName?_eq_none (unnamed : Database.ofName? config.dialect = none) :
    config.usedIds = [] := by
  rw [usedIds, config.ofDatabases_calls.get_of_ofName?_eq_none config.records_registry unnamed]

/-- The ids that are the configured one letter by letter are those whose dialect is used only if
there is one, or no dialect to use. -/
theorem filter_eq_usedIds_iff :
    config.registry.ids.filter (· = config.dialect) = config.usedIds ↔
      config.dialect ∈ config.registry.ids ∨
        ∃ e, config.registry.get config.dialect = .error e := by
  cases name : Database.ofName? config.dialect with
  | none =>
    have unlisted : ∀ id ∈ config.registry.ids, ¬ decide (id = config.dialect) = true := by
      intro id known same
      obtain ⟨_, -, name'⟩ := ofName?_of_mem_ids (of_decide_eq_true same ▸ known)
      rw [name] at name'
      cases name'
    rw [usedIds_of_ofName?_eq_none name]
    exact iff_of_true (List.filter_eq_nil_iff.2 unlisted)
      (.inr ⟨_, config.ofDatabases_calls.get_of_ofName?_eq_none config.records_registry name⟩)
  | some db =>
    rw [usedIds_of_ofName? name, get_registry name]
    constructor
    · intro same
      -- the id in use is marked, so it is the configured one itself
      have known : db.id ∈ config.registry.ids := mem_ids_registry.2 ⟨db, rfl⟩
      have used : db.id ∈ config.registry.ids.filter (· = db.id) :=
        List.mem_filter.2 ⟨known, decide_eq_true rfl⟩
      rw [← same] at used
      exact .inl (of_decide_eq_true (List.mem_filter.1 used).2 ▸ known)
    · rintro (listed | ⟨_, failed⟩)
      · obtain ⟨db', same, name'⟩ := ofName?_of_mem_ids listed
        obtain rfl := Option.some.inj (name.symm.trans name')
        rw [same]
      · cases failed

theorem get_eq_of_mem_usedIds (used : id ∈ config.usedIds) :
    config.registry.get config.dialect = config.registry.get id := by
  cases name : Database.ofName? config.dialect with
  | none =>
    rw [usedIds_of_ofName?_eq_none name] at used
    cases used
  | some db =>
    rw [usedIds_of_ofName? name] at used
    obtain rfl : id = db.id := of_decide_eq_true (List.mem_filter.1 used).2
    rw [get_registry name, get_registry (ofName?_of_sameId rfl)]

end Config

namespace CommandLine

/-! ### Lines -/

/-- The lines of a text, without the breaks at their ends. -/
def textLines : List Char → List (List Char)
  | [] => []
  | c :: cs =>
    if c = '\n' then [] :: textLines cs
    else
      match textLines cs with
      | [] => [[c]]
      | line :: more => (c :: line) :: more

theorem textLines_line {line : List Char} (h : '\n' ∉ line) (rest : List Char) :
    textLines (line ++ '\n' :: rest) = line :: textLines rest := by
  induction line with
  | nil => rfl
  | cons c line ih =>
    have ne : c ≠ '\n' := fun same => h (same ▸ List.mem_cons_self)
    rw [List.cons_append, textLines, if_neg ne, ih fun broken => h (List.mem_cons_of_mem c broken)]

theorem textLines_lines {ls : List String} (h : ∀ l ∈ ls, '\n' ∉ l.toList) :
    textLines (lines ls).toList = ls.map String.toList := by
  induction ls with
  | nil => rfl
  | cons l ls ih =>
    have split : (lines (l :: ls)).toList = l.toList ++ '\n' :: (lines ls).toList := by
      simp [lines, String.join_cons]
    rw [split, textLines_line (h l List.mem_cons_self), List.map_cons,
      ih fun l' hl' => h l' (List.mem_cons_of_mem _ hl')]

/-- What stands behind the mark of a line that has one. -/
def markedId? : List Char → Option String
  | '*' :: ' ' :: id => some (String.ofList id)
  | _ => none

/-- The ids that a listing marks. -/
def markedIds (text : String) : List String := (textLines text.toList).filterMap markedId?

theorem markedId?_mark (chosen id : String) :
    markedId? ((if id = chosen then "* " else "  ") ++ id).toList =
      Option.guard (fun id => id = chosen) id := by
  by_cases same : id = chosen
  · simp [same, markedId?, Option.guard]
  · simp [same, markedId?, Option.guard]

theorem markedIds_listing (config : Config) :
    markedIds (listing config) = config.registry.ids.filter (· = config.dialect) := by
  have whole : ∀ l ∈ config.registry.ids.map
      (fun id => (if id = config.dialect then "* " else "  ") ++ id), '\n' ∉ l.toList := by
    intro l listed
    obtain ⟨id, known, rfl⟩ := List.mem_map.1 listed
    obtain ⟨db, rfl⟩ := Config.mem_ids_registry.1 known
    rw [String.toList_append, List.mem_append, not_or]
    constructor
    · split <;> decide
    · cases db <;> decide
  rw [markedIds, listing, textLines_lines whole, List.map_map, List.filterMap_map,
    ← List.filterMap_eq_filter]
  exact congrArg (List.filterMap · _) (funext (markedId?_mark _))

/-! ### Runs -/

variable {w : World} {environment path : Option String} {args : List String} {config : Config}

theorem compileRequest_of_mem_usedIds {id : String} (used : id ∈ config.usedIds)
    {request : CompileRequest} (unasked : request.dialect = none) :
    compileRequest w config request =
      compileRequest w config { request with dialect := some id } := by
  simp only [compileRequest, Registry.compile, unasked, Option.getD_none, Option.getD_some,
    Config.get_eq_of_mem_usedIds used]

theorem run_dialects (asked : Invocation.ofArguments? environment args = some ⟨path, .dialects⟩)
    (loaded : Config.load w path = .ok config) :
    run w environment args = ⟨0, listing config, none⟩ := by
  rw [run, asked]
  simp only [perform, loaded]
  rfl

/-- A listing marks what the configuration gives as its dialect, letter by letter. Queries are
compiled for the dialect that the registry has for that name, so where the name is no id as it is
listed, they are compiled for a dialect without a mark. -/
theorem run_dialects_marks
    (asked : Invocation.ofArguments? environment args = some ⟨path, .dialects⟩)
    (loaded : Config.load w path = .ok config) :
    ∃ out, run w environment args = ⟨0, out, none⟩ ∧
      markedIds out = config.registry.ids.filter (· = config.dialect) ∧
      (markedIds out = config.usedIds ↔ config.dialect ∈ config.registry.ids ∨
        ∃ e, config.registry.get config.dialect = .error e) ∧
      ∀ id ∈ config.usedIds, ∀ request : CompileRequest, request.dialect = none →
        compileRequest w config request =
          compileRequest w config { request with dialect := some id } := by
  refine ⟨listing config, run_dialects asked loaded, markedIds_listing config, ?_,
    fun _ used _ unasked => compileRequest_of_mem_usedIds used unasked⟩
  rw [markedIds_listing]
  exact Config.filter_eq_usedIds_iff

/-- Nothing but a configuration in the working directory, which gives a short name. -/
def shortNameWorld : World where
  read path :=
    if path = Config.localPath then .ok "[compiler]\ndialect = \"pg\"\n" else .error .notFound
  stdin := ""
  userConfig := none

theorem run_dialects_marks_shortName :
    ∃ out, run shortNameWorld none ["dialects"] = ⟨0, out, none⟩ ∧
      markedIds out ≠ ({ dialect := "pg" } : Config).usedIds := by
  have asked : Invocation.ofArguments? none ["dialects"] = some ⟨none, .dialects⟩ := by decide
  have loaded : Config.load shortNameWorld none = .ok { dialect := "pg" } := by cbv
  obtain ⟨out, ended, -, agree, -⟩ := run_dialects_marks asked loaded
  refine ⟨out, ended, fun same => ?_⟩
  have name : Database.ofName? "pg" = some .postgres := by cbv
  rcases agree.1 same with listed | ⟨_, failed⟩
  · obtain ⟨db, same⟩ := Config.mem_ids_registry.1 listed
    cases db <;> exact absurd same (by decide)
  · rw [Config.get_registry name] at failed
    cases failed

end CommandLine

end SelectCompiler
