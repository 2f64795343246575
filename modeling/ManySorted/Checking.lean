import ManySorted.Contract
import ManySorted.Declaration.Restriction
import ManySorted.Diagnostic.Queue
import ManySorted.Import
import ManySorted.Productivity
import ManySorted.Sizing.Basic

/-!
# Checking a module

A module is checked in passes over one table: imports, declarations, productivity, sizes,
contracts.  Problems of the module do not stop later passes; cancellation does, and leaves the
table invalid.  A table is valid if the run was not cancelled and no error was found.
-/

namespace ManySorted

/-- The checked tables, by module name. -/
structure Library where
  tables : List (Name × Table) := []

namespace Library

def find? (library : Library) (module : Name) : Option Table := library.tables.lookup module

/-- Adds a table in place of the one that its module may have. -/
def insert (library : Library) (t : Table) : Library :=
  ⟨(t.module, t) :: library.tables.filter (·.1 ≠ t.module)⟩

/-- Whether the library has this table, and not another of the same module. -/
def holds (library : Library) (t : Table) : Bool :=
  (library.find? t.module).any fun published => published.id == t.id

@[simp]
theorem find?_insert_self (library : Library) (t : Table) :
    (library.insert t).find? t.module = some t := by
  simp [find?, insert]

/-- A table that is added is held. -/
theorem holds_insert_self (library : Library) (t : Table) : (library.insert t).holds t := by
  simp [holds]

/-- Adding a table lets go of every other one of the same module. -/
theorem holds_insert_eq_false (library : Library) {t u : Table} (same : u.module = t.module)
    (other : t.id ≠ u.id) : (library.insert t).holds u = false := by
  simp [holds, same, other]

def size (library : Library) : Nat := library.tables.length

def isEmpty (library : Library) : Bool := library.tables.isEmpty

end Library

/-- How a run is paced and what it hands out. -/
structure CheckConfig where
  /-- The number of steps between two looks for cancellation. -/
  batch : Nat := 256
  /-- The greatest number of errors among the diagnostics; without limit if zero. -/
  errorLimit : Nat := 100
  /-- Whether the run is cancelled by the time that so much has happened. -/
  cancelledBy : Progress → Bool := fun _ => false

/-- Without a limit on errors, and looking for cancellation at every step. -/
def CheckConfig.unlimited : CheckConfig := { batch := 1, errorLimit := 0 }

/-- The result of checking a module. -/
structure CheckOutput where
  table : Table
  /-- Sorted by place. -/
  diagnostics : List Diagnostic
  cancelled : Bool

def CheckOutput.errorCount (out : CheckOutput) : Nat := out.diagnostics.countP Diagnostic.isError

namespace Draft

/-- Imports the module that a reference names, if it can be had. -/
def importReference (library : Library) (m : Module) (reference : ModuleRef) : DraftM Unit := do
  tick
  modify fun d => { d with clock := d.clock.request }
  match library.find? reference.module with
  | some foreign => importModule reference foreign
  | none =>
      let module := (← getNames).text reference.module
      report (m.locate reference.span) (.badComposition s!"module `{module}` is not available")

/-- All passes over a module. -/
def checkPasses (library : Library) (m : Module) : DraftM Unit := do
  m.references.forM (importReference library m)
  declare m
  let productive ← checkProductivity
  sizeData productive
  m.contracts.forM (checkContract m)

end Draft

/-- The diagnostics of a table. -/
def Table.diagnostics (t : Table) (errorLimit : Nat) : List Diagnostic :=
  let queue : DiagnosticQueue := { config := { errorLimit } }
  ((t.reports.map Report.toDiagnostic).foldl DiagnosticQueue.add queue).flush.1

/-- Closes the question of validity: a table in which no error was found is valid. -/
def Table.resolveValidity (t : Table) : Except Fault Table :=
  if t.validity.isPending then do
    let validity ← t.validity.resolve true
    return { t with validity }
  else .ok t

/-- What a run hands out.  The table of a cancelled run is invalid. -/
def Table.output (t : Table) (errorLimit : Nat) (cancelled : Bool) : Except Fault CheckOutput := do
  let t ← (if cancelled then { t with validity := t.validity.falsify } else t).resolveValidity
  return { table := t, diagnostics := t.diagnostics errorLimit, cancelled }

/-- Checks a module against the tables of a library.  Its own table has the identity `id`. -/
def checkModule (names : Interner) (id : TableId) (library : Library) (config : CheckConfig)
    (m : Module) : Interner × Except Fault CheckOutput :=
  let (names, table) := Table.create names id m.name m.kind m.file
  let clock : Clock := { batch := config.batch, cancelledBy := config.cancelledBy }
  match Draft.checkPasses library m { names, table, clock } with
  | .ok _ d => (d.names, d.table.output config.errorLimit false)
  | .error .cancelled d => (d.names, d.table.output config.errorLimit true)
  | .error (.fault fault) d => (d.names, .error fault)

end ManySorted
