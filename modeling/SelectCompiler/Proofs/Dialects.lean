import SelectCompiler.Dialect.Database

/-!
The dialects that theorems about text are about: those of the five databases, SQL Server with any
default schema.
-/

namespace SelectCompiler.Dialect

inductive BuiltIn : Dialect → Prop where
  | postgres : BuiltIn postgres
  | mysql : BuiltIn mysql
  | sqlite : BuiltIn sqlite
  | sqlServer (schema : String) : BuiltIn (sqlServer schema)
  | oracle : BuiltIn oracle

/-- What holds of the dialects of the databases, and does not depend on the default schema of SQL
Server. -/
@[elab_as_elim]
theorem BuiltIn.of_databases {motive : Dialect → Prop} {d : Dialect} (hd : d.BuiltIn)
    (h : ∀ db ∈ Database.all, motive db.dialect)
    (unowned : ∀ schema, motive (.sqlServer Database.standardSchema) → motive (.sqlServer schema)) :
    motive d := by
  cases hd with
  | postgres => exact h .postgres (by decide)
  | mysql => exact h .mysql (by decide)
  | sqlite => exact h .sqlite (by decide)
  | sqlServer schema => exact unowned schema (h .sqlServer (by decide))
  | oracle => exact h .oracle (by decide)

end SelectCompiler.Dialect

namespace SelectCompiler.Database

/-- The dialect of a database, with a schema for unqualified functions where it has one. -/
def dialectWith (schema : String) : Database → Dialect
  | sqlServer => .sqlServer schema
  | db => db.dialect

theorem name_dialectWith (schema : String) (db : Database) : (db.dialectWith schema).name = db.id := by
  cases db <;> rfl

end SelectCompiler.Database
