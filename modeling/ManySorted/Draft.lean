import ManySorted.Table.Resolution

/-!
# Tables under construction

While a module is checked its table grows, names are interned and time passes.  Long passes count
their steps, and every so many steps they look whether checking was cancelled; if so, they stop and
leave the table as far as it got.
-/

namespace ManySorted

/-- What has happened in a run so far. -/
structure Progress where
  /-- The steps taken. -/
  ticks : Nat := 0
  /-- The modules asked for. -/
  requests : Nat := 0
deriving DecidableEq, Repr

/-- The clock of a run: when the run looks whether it is cancelled, and when it is. -/
structure Clock where
  /-- The number of steps between two looks. -/
  batch : Nat := 256
  /-- Whether the run is cancelled by the time that so much has happened. -/
  cancelledBy : Progress → Bool := fun _ => false
  progress : Progress := {}

namespace Clock

/-- One step later. -/
def advance (c : Clock) : Clock := { c with progress.ticks := c.progress.ticks + 1 }

/-- After asking for one more module. -/
def request (c : Clock) : Clock := { c with progress.requests := c.progress.requests + 1 }

/-- Whether the run looks at this moment, and finds itself cancelled. -/
def seesCancellation (c : Clock) : Bool :=
  c.progress.ticks % max 1 c.batch == 0 && c.cancelledBy c.progress

end Clock

/-- A table under construction. -/
structure Draft where
  names : Interner
  table : Table
  clock : Clock := {}

/-- A pass over a draft.  A pass that stops early leaves the draft as far as it got. -/
abbrev DraftM := EStateM Abort Draft

namespace Draft

/-- Takes one step. -/
def tick : DraftM Unit := do
  modify fun d => { d with clock := d.clock.advance }
  if (← get).clock.seesCancellation then throw .cancelled

def getTable : DraftM Table := return (← get).table

def getNames : DraftM Interner := return (← get).names

def modifyTable (f : Table → Table) : DraftM Unit :=
  modify fun d => { d with table := f d.table }

/-- Changes the table by a step that may break an invariant. -/
def tryModifyTable (f : Table → Except Fault Table) : DraftM Unit := do
  match f (← getTable) with
  | .ok table => modifyTable fun _ => table
  | .error fault => throw (.fault fault)

def intern (s : String) : DraftM Name :=
  modifyGet fun d => let (name, names) := d.names.intern s; (name, { d with names })

def report (location : Location) (problem : Problem) : DraftM Unit :=
  modifyTable (·.report ⟨location, problem⟩)

/-- Registers a symbol, or returns the one that has its name. -/
def register (home : NamespaceId) (name : Name) (arity : Nat) (location : Location)
    (kind : SymbolKind) : DraftM (Except SymbolId SymbolId) :=
  modifyGet fun d =>
    match d.table.register home name arity location kind with
    | .ok (id, table) => (.ok id, { d with table })
    | .error existing => (.error existing, d)

/-- Registers a constructor or map with its companions, or returns the symbol that has its name. -/
def registerData (home : NamespaceId) (name : Name) (arity : Nat) (location : Location)
    (shape : DataShape) (labels : List (Option Name)) (any : List Bool) :
    DraftM (Except SymbolId SymbolId) :=
  modifyGet fun d =>
    match d.table.registerData d.names home name arity location shape labels any with
    | .ok (id, names, table) => (.ok id, { d with names, table })
    | .error existing => (.error existing, d)

/-- Reports that `name` is already defined by the symbol `previous`. -/
def reportDuplicate (location : Location) (name : Name) (previous : SymbolId) : DraftM Unit :=
  modify fun d => { d with table := d.table.reportDuplicate d.names location name previous }

/-- The problem of using a name that is no legal identifier. -/
def illegalId? (names : Interner) (name : Name) (usage : String) : Option Problem :=
  if isLegalId (names.text name) then none else some (.badId (names.text name) usage)

/-- Reports a name that is no legal identifier, and says whether it is one. -/
def checkId (location : Location) (name : Name) (usage : String) : DraftM Bool := do
  match illegalId? (← getNames) name usage with
  | none => return true
  | some problem =>
      report location problem
      return false

end Draft

end ManySorted
