import ManySorted.Checking
import ManySorted.Coercion.Across

/-!
# Workspaces

A workspace holds the tables of a session, which share one interner.  Published tables are in the
library that modules are checked against, and are not changed while they are there; a table leaves
the library when another of its module is published.  Every table remembers the coercions it was
asked for.
-/

namespace ManySorted

/-- Why a request to a workspace is not answered. -/
inductive WorkspaceError where
  | noTable
  | noSymbol
  | noNamespace
  /-- The table is published, so it cannot be changed. -/
  | frozen
  | aborted (abort : Abort)
deriving DecidableEq, Repr

/-- A table of a workspace. -/
structure Holding where
  table : Table
  coercions : CoercionCache := {}

/-- The tables of a session; the identity of a table is its position. -/
structure Workspace where
  names : Interner := .initial
  library : Library := {}
  holdings : Array Holding := #[]

/-- A request to a workspace.  A request that fails keeps what it interned. -/
abbrev WorkspaceM := ExceptT WorkspaceError (StateM Workspace)

/-- How a symbol is referred to. -/
inductive SymbolRef where
  | at (index : Nat)
  /-- By a dotted name that resolves. -/
  | named (dotted : String)
  /-- The sort of the symbol with a dotted name. -/
  | sortOf (dotted : String)
deriving DecidableEq, Repr

/-- How a namespace is referred to. -/
inductive NamespaceRef where
  | at (index : Nat)
  /-- By the path from the root; empty segments do not count. -/
  | path (dotted : String)
deriving DecidableEq, Repr

namespace Table

/-- The symbol that a reference denotes. -/
def deref? (t : Table) (names : Interner) : SymbolRef → Option SymbolId
  | .at index => if index < t.symbols.size then some ⟨index⟩ else none
  | .named dotted => (t.lookup names dotted).found?
  | .sortOf dotted => (t.lookup names dotted).found?.bind t.sortOf?

/-- The namespace that a reference denotes. -/
def derefNamespace? (t : Table) (names : Interner) : NamespaceRef → Option NamespaceId
  | .at index => if index < t.namespaces.size then some ⟨index⟩ else none
  | .path dotted =>
      (((Text.split '.' dotted).filter (· ≠ "")).mapM names.find?).bind (t.descend? .root)

end Table

namespace Workspace

/-- The identity that the next table will have. -/
def nextId (w : Workspace) : TableId := ⟨w.holdings.size⟩

def intern (s : String) : WorkspaceM Name :=
  modifyGet fun w => let (name, names) := w.names.intern s; (name, { w with names })

def getNames : WorkspaceM Interner := return (← get).names

/-- The table at a position, with what goes along with it. -/
def holding (i : Nat) : WorkspaceM Holding := do
  match (← get).holdings[i]? with
  | some h => return h
  | none => throw .noTable

def table (i : Nat) : WorkspaceM Table := return (← holding i).table

def setHolding (i : Nat) (h : Holding) : WorkspaceM Unit :=
  modify fun w => { w with holdings := w.holdings.modify i fun _ => h }

/-- A table that may be changed, because it is not in the library. -/
def changeable (i : Nat) : WorkspaceM Holding := do
  let h ← holding i
  if (← get).library.holds h.table then throw .frozen else return h

def derefSymbol (t : Table) (ref : SymbolRef) : WorkspaceM SymbolId := do
  match t.deref? (← getNames) ref with
  | some id => return id
  | none => throw .noSymbol

def derefNamespace (t : Table) (ref : NamespaceRef) : WorkspaceM NamespaceId := do
  match t.derefNamespace? (← getNames) ref with
  | some id => return id
  | none => throw .noNamespace

/-- Adds a table with nothing but the built-in symbols. -/
def createTable (module : Name) (kind : ModuleKind) (file : Name) : WorkspaceM TableId :=
  modifyGet fun w =>
    let (names, table) := Table.create w.names w.nextId module kind file
    (w.nextId, { w with names, holdings := w.holdings.push { table } })

/-- Puts a table into the library, in place of the one that its module may have there. -/
def publish (i : Nat) : WorkspaceM Unit := do
  let h ← changeable i
  modify fun w => { w with library := w.library.insert h.table }

/-- Checks a module against the library and adds its table, which is published unless it is to be
kept out of the library. -/
def check (config : CheckConfig) (keep : Bool) (m : Module) : WorkspaceM CheckOutput := do
  let w ← get
  let (names, result) := checkModule w.names w.nextId w.library config m
  set { w with names }
  match result with
  | .error fault => throw (.aborted (.fault fault))
  | .ok out =>
      modify fun w => { w with holdings := w.holdings.push { table := out.table } }
      if !keep then publish w.nextId.index
      return out

/-- The child namespace of a table with the given name, which is created if there is none. -/
def childNamespace (i : Nat) (parent : NamespaceRef) (name : String) :
    WorkspaceM NamespaceId := do
  let name ← intern name
  let h ← changeable i
  let (id, table) := h.table.childNamespace (← derefNamespace h.table parent) name
  setHolding i { h with table }
  return id

/-- Registers a symbol in a table, or returns the one that has its name. -/
def register (i : Nat) (home : NamespaceId) (name : Name) (arity : Nat) (location : Location)
    (kind : SymbolKind) : WorkspaceM (Except SymbolId SymbolId) := do
  let h ← changeable i
  match h.table.register home name arity location kind with
  | .ok (id, table) =>
      setHolding i { h with table }
      return .ok id
  | .error existing => return .error existing

/-- Records a problem in a table. -/
def report (i : Nat) (r : Report) : WorkspaceM Table := do
  let h ← changeable i
  let table := h.table.report r
  setHolding i { h with table }
  return table

/-- Answers a coercion query and remembers the answer.  Also gives the number of remembered ones. -/
def coerce (i : Nat) (key : CoercionKey) : WorkspaceM (Coercibility × Nat) := do
  let h ← holding i
  match h.table.coerce key.symbol key.source key.target h.coercions with
  | .ok answer coercions =>
      setHolding i { h with coercions }
      return (answer, coercions.size)
  | .error fault coercions =>
      setHolding i { h with coercions }
      throw (.aborted (.fault fault))

/-- Compares a sort of one table with that of another. -/
def coerceAcross (left right : Nat) (path : String) : WorkspaceM Coercibility := do
  let source ← table left
  let target ← table right
  let w ← get
  let (names, result) := ManySorted.coerceAcross w.names source target path
  set { w with names }
  match result with
  | .ok answer => return answer
  | .error abort => throw (.aborted abort)

end Workspace

end ManySorted
