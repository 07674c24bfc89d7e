import Topic0.MigratorPreflight

/-! The life of one database under many migrations. `apply` is not one transaction: a statement that
the database refuses leaves what the earlier ones did. Because no statement takes anything away, every
history of migrations only adds; and because every statement does nothing where its work is done, a
migration that is run again after failures ends where an uninterrupted one ends. -/

namespace Topic0.Migrator

open Keyed

/-- The database, refusing what it is told to. -/
def refusing (db : Database) (permits : Catalog → Statement → Bool) : Database :=
  { db with permits := permits }

/-- A migration: the schemas of a config, the flag, and what the database permits meanwhile. -/
structure Migration where
  desired : List EventSchema
  allowDestructive : Bool
  permits : Catalog → Statement → Bool

/-- The catalog after `PgMigrator`'s plan and apply, whether they ended well or not. What
`base_schema::init` does before them is left out. -/
def migrate (db : Database) (c : Catalog) (m : Migration) : Catalog :=
  (apply (refusing db m.permits) (plan c m.desired) m.allowDestructive c).1

section Additive

theorem Grows.refl (r : Relation) : Grows r r := by
  cases r with
  | table columns => exact fun _ hcolumn => hcolumn
  | view columns => rfl
  | other => trivial

theorem Grows.trans {a b c : Relation} (hab : Grows a b) (hbc : Grows b c) : Grows a c := by
  cases a with
  | table columns =>
      cases b with
      | table columns' =>
          cases c with
          | table columns'' => exact fun column hcolumn => hbc column (hab column hcolumn)
          | view columns'' => exact hbc.elim
          | other => exact hbc.elim
      | view columns' => exact hab.elim
      | other => exact hab.elim
  | view columns =>
      cases b with
      | table columns' => exact hab.elim
      | view columns' =>
          obtain rfl : columns = columns' := hab
          exact hbc
      | other => exact hab.elim
  | other =>
      cases b with
      | table columns' => exact hab.elim
      | view columns' => exact hab.elim
      | other => exact hbc

theorem grows_addAll (r : Relation) (columns : List (String × PgType)) :
    Grows r (r.addAll columns) := by
  induction columns generalizing r with
  | nil => exact Grows.refl r
  | cons column columns ih =>
      apply Grows.trans _ (ih (r.add column))
      cases r with
      | table held => exact fun x hx => Table.mem_insertIgnore.mpr (.inl hx)
      | view held => rfl
      | other => trivial

/-- The second catalog has all that the first has. -/
structure Keeps (c c' : Catalog) : Prop where
  relations : Extends c c'
  receiptsTxFk : c.receiptsTxFk = true → c'.receiptsTxFk = true

theorem Keeps.refl (c : Catalog) : Keeps c c :=
  ⟨fun _ r hr => ⟨r, hr, Grows.refl r⟩, id⟩

theorem Keeps.trans {a b c : Catalog} (hab : Keeps a b) (hbc : Keeps b c) : Keeps a c := by
  refine ⟨?_, hbc.receiptsTxFk ∘ hab.receiptsTxFk⟩
  intro n r hr
  obtain ⟨r', hr', hgrows⟩ := hab.relations n r hr
  obtain ⟨r'', hr'', hgrows'⟩ := hbc.relations n r' hr'
  exact ⟨r'', hr'', hgrows.trans hgrows'⟩

theorem keeps_exec {db : Database} {stmt : Statement} {c c' : Catalog}
    (h : db.exec c stmt = .ok c') : Keeps c c' := by
  refine ⟨?_, receiptsTxFk_exec h⟩
  intro n r hr
  exact ⟨_, relation_kept h hr, grows_addAll r _⟩

theorem keeps_run {db : Database} (stmts : List Statement) (c : Catalog) :
    Keeps c (Script.run db.exec stmts c).1 := by
  induction stmts generalizing c with
  | nil => exact Keeps.refl c
  | cons stmt stmts ih =>
      rw [Script.run]
      cases hexec : db.exec c stmt with
      | error e => exact Keeps.refl c
      | ok c' => exact (keeps_exec hexec).trans (ih c')

theorem keeps_migrate (db : Database) (c : Catalog) (m : Migration) : Keeps c (migrate db c m) := by
  rw [migrate, apply]
  split
  · exact Keeps.refl c
  · exact keeps_run _ c

theorem Keeps.delivered {c c' : Catalog} (h : Keeps c c') {desired : List EventSchema}
    (hdelivered : Delivered c desired) : Delivered c' desired := by
  intro schema hschema
  obtain ⟨columns, hcolumns, hall⟩ := hdelivered schema hschema
  obtain ⟨r, hr, hgrows⟩ := h.relations _ _ hcolumns
  cases r with
  | table columns' => exact ⟨columns', hr, fun col hcol => hgrows _ (hall col hcol)⟩
  | view columns' => exact hgrows.elim
  | other => exact hgrows.elim

theorem Keeps.isInSync {c c' : Catalog} (h : Keeps c c') {desired : List EventSchema}
    (hsync : isInSync c desired = true) : isInSync c' desired = true := by
  rw [Migrator.isInSync, List.all_eq_true] at hsync ⊢
  intro schema hschema
  have hexists := hsync schema hschema
  rw [Catalog.tableExists] at hexists
  cases hrel : c.relation schema.table with
  | none =>
      rw [hrel] at hexists
      cases hexists
  | some r =>
      rw [hrel] at hexists
      obtain ⟨r', hr', hgrows⟩ := h.relations _ _ hrel
      rw [Catalog.tableExists, hr']
      cases r with
      | table columns =>
          cases r' with
          | table columns' => rfl
          | view columns' => exact hgrows.elim
          | other => exact hgrows.elim
      | view columns =>
          cases r' with
          | table columns' => exact hgrows.elim
          | view columns' => rfl
          | other => exact hgrows.elim
      | other => cases hexists

/-- Whatever configs are migrated to one after the other, and wherever a migration fails, no table,
column, index or key goes away and no column changes its type; what was delivered stays delivered and
what was in sync stays in sync. -/
theorem migrations_only_add (db : Database) (c : Catalog) (history : List Migration) :
    Keeps c (history.foldl (migrate db) c) ∧
      ∀ desired, (Delivered c desired → Delivered (history.foldl (migrate db) c) desired) ∧
        (isInSync c desired = true → isInSync (history.foldl (migrate db) c) desired = true) := by
  have hkeeps : Keeps c (history.foldl (migrate db) c) := by
    induction history generalizing c with
    | nil => exact Keeps.refl c
    | cons m history ih => exact (keeps_migrate db c m).trans (ih (migrate db c m))
  exact ⟨hkeeps, fun desired => ⟨hkeeps.delivered, hkeeps.isInSync⟩⟩

end Additive

section Resume

/-- The database when nothing is refused. -/
def willing (db : Database) : Database := refusing db fun _ _ => true

theorem exec_willing {db : Database} (permits : Catalog → Statement → Bool) (stmt : Statement)
    (c c' : Catalog) (h : (refusing db permits).exec c stmt = .ok c') :
    (willing db).exec c stmt = .ok c' := by
  unfold Database.exec at h
  split at h
  · cases h
  · exact h

/-- The catalog that attempts at one config leave, each stopped wherever the database refused. -/
def interrupted (db : Database) (desired : List EventSchema) (live : Catalog)
    (tries : List (Catalog → Statement → Bool)) : Catalog :=
  (tries.map fun permits => ⟨desired, false, permits⟩).foldl (migrate db) live

theorem interrupted_eq (db : Database) (desired : List EventSchema) (live : Catalog)
    (tries : List (Catalog → Statement → Bool)) :
    interrupted db desired live tries =
      Script.attempts (fun permits => (refusing db permits).exec)
        (desired.flatMap Ddl.tableStatements) tries live := by
  rw [interrupted, List.foldl_map, Script.attempts]
  congr 1
  funext c permits
  rw [migrate, apply_plan]

/-- However often a migration failed before, and wherever, once it ends well the catalog is the one
that an uninterrupted migration of the first catalog would have made. -/
theorem interrupted_migration_resumes (db : Database) (desired : List EventSchema) (live : Catalog)
    (tries : List (Catalog → Statement → Bool)) (last : Catalog → Statement → Bool)
    (hended : (apply (refusing db last) (plan (interrupted db desired live tries) desired) false
      (interrupted db desired live tries)).2 = .ok ()) :
    apply (willing db) (plan live desired) false live =
      apply (refusing db last) (plan (interrupted db desired live tries) desired) false
        (interrupted db desired live tries) := by
  have hrun := run_of_apply _ desired hended
  rw [interrupted_eq] at hrun
  have hwhole : Script.run (willing db).exec (desired.flatMap Ddl.tableStatements) live = _ :=
    Script.run_of_attempts exec_willing done_exec done_kept exec_of_done _ tries last hrun
  rw [apply_plan, hwhole, ← interrupted_eq]
  exact Prod.ext (by rw [apply_plan]) hended.symm

theorem interrupted_transfer_migration_resumes :
    apply (willing plainDb) (plan emptyCatalog [transferSchema]) false emptyCatalog =
      apply (refusing plainDb fun _ _ => true)
        (plan (interrupted plainDb [transferSchema] emptyCatalog
          [fun _ stmt => stmt matches .createTable ..]) [transferSchema]) false
        (interrupted plainDb [transferSchema] emptyCatalog
          [fun _ stmt => stmt matches .createTable ..]) :=
  interrupted_migration_resumes _ _ _ _ _ rfl

end Resume

end Topic0.Migrator
