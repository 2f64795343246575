import ManySorted.Decision
import ManySorted.Problem
import ManySorted.Rule.Basic
import ManySorted.Symbol

/-!
# Symbol tables

The table of a module holds its namespaces, which form a tree, and its symbols, each of which lives
in a namespace.  A table only grows: namespaces, symbols, reports and rules are added and never
removed, and the canonical form and the size of a symbol are written at most once.

A namespace lists its children and its symbols in the order in which they came, and keeps an index
of each by name beside the list.  A list and its index are written side by side and never compared:
that they agree is for those who write them to see to.
-/

namespace ManySorted

/-- Enters `a` into an index under a key, in place of what the index has there. -/
def enter {κ α : Type} [DecidableEq κ] (index : List (κ × α)) (key : κ) (a : α) : List (κ × α) :=
  index.filter (fun entry => entry.1 ≠ key) ++ [(key, a)]

/-- A node of the tree of namespaces. -/
structure Namespace where
  /-- The root has the empty name. -/
  name : Name
  parent : Option NamespaceId := none
  /-- The distance from the root. -/
  depth : Nat := 0
  /-- The children, in order of creation. -/
  childList : List NamespaceId := []
  /-- The index of the children by name. -/
  children : List (Name × NamespaceId) := []
  /-- The named symbols, in order of registration. -/
  symbolList : List SymbolId := []
  /-- The index of the symbols by name. -/
  symbols : List (Name × SymbolId) := []
deriving DecidableEq, Repr, Inhabited

namespace Namespace

def child? (ns : Namespace) (name : Name) : Option NamespaceId := ns.children.lookup name

def symbol? (ns : Namespace) (name : Name) : Option SymbolId := ns.symbols.lookup name

def addChild (ns : Namespace) (name : Name) (id : NamespaceId) : Namespace :=
  { ns with children := enter ns.children name id, childList := ns.childList ++ [id] }

/-- Adds a symbol.  If there is one of the same name already, that one is returned as the error. -/
def addSymbol (ns : Namespace) (name : Name) (id : SymbolId) : Except SymbolId Namespace :=
  match ns.symbol? name with
  | some existing => .error existing
  | none =>
      .ok { ns with symbols := enter ns.symbols name id, symbolList := ns.symbolList ++ [id] }

end Namespace

/-- The symbol table of one module. -/
structure Table where
  id : TableId
  module : Name
  kind : ModuleKind
  file : Name
  namespaces : Array Namespace := #[{ name := .empty }]
  symbols : Array Symbol := #[]
  validity : Decision := .pending
  /-- The problems found, in the order of their finding. -/
  reports : List Report := []
  rules : List Rule := []
  /-- The literals of this module and of all that it imports. -/
  literals : OrderedSet Literal := ∅
  /-- The tables of this module and of all that it imports, by module name. -/
  dependencies : OrderedMap Name TableId := ∅
deriving Repr

namespace Table

/-! ## Reading -/

def namespaceAt (t : Table) (ns : NamespaceId) : Namespace := t.namespaces.getD ns.index default

def symbolAt (t : Table) (id : SymbolId) : Symbol := t.symbols.getD id.index default

def kindOf (t : Table) (id : SymbolId) : SymbolKind := (t.symbolAt id).kind

/-- The namespaces from `ns` up to the root, at most `fuel` of them. -/
def ancestorsWithin (t : Table) : Nat → NamespaceId → List NamespaceId
  | 0, _ => []
  | fuel + 1, ns =>
      match (t.namespaceAt ns).parent with
      | some parent => ns :: t.ancestorsWithin fuel parent
      | none => [ns]

/-- The namespaces from `ns` up to the root.  A path up the tree is no longer than the number of
namespaces. -/
def ancestors (t : Table) (ns : NamespaceId) : List NamespaceId :=
  t.ancestorsWithin t.namespaces.size ns

/-- The names from the root down to `ns`, without the root's. -/
def path (t : Table) (ns : NamespaceId) : List Name :=
  ((t.ancestors ns).map t.namespaceAt).reverse.filterMap fun node =>
    if node.parent.isSome then some node.name else none

/-- Whether `ns` is `ancestor` or lies below it. -/
def isWithin (t : Table) (ns ancestor : NamespaceId) : Bool := (t.ancestors ns).contains ancestor

/-- The names of all namespaces but the root. -/
def namespaceNames (t : Table) : List Name := (t.namespaces.toList.drop 1).map Namespace.name

/-- The data symbol of a companion sort. -/
def dataOf? (t : Table) (sort : SymbolId) : Option SymbolId :=
  match t.kindOf sort with
  | .userSort data _ => some data
  | _ => none

/-- The companion sort of a constructor or map; a sort is its own. -/
def sortOf? (t : Table) (id : SymbolId) : Option SymbolId :=
  match t.kindOf id with
  | .userSort .. => some id
  | kind => kind.info?.map DataInfo.sort

/-- The symbol under whose name `id` goes: the data symbol of a companion sort, else `id` itself. -/
def bearer (t : Table) (id : SymbolId) : Symbol := t.symbolAt ((t.dataOf? id).getD id)

/-- The dotted name of a symbol; companion sorts go by the name of their data symbol. -/
def qualifiedName (t : Table) (names : Interner) (id : SymbolId) : String :=
  names.join (t.path (t.symbolAt id).home ++ [(t.bearer id).name])

def hasErrors (t : Table) : Bool := t.reports.any (!·.isWarning)

def isValid (t : Table) : Bool := t.validity == .decided true

/-- The operator that rules about positions are phrased with. -/
def subConstraint? (t : Table) : Option SymbolId :=
  (t.symbols.find? fun s => s.kind matches .baseOperator .subConstraint).map Symbol.id

/-! ## Growing -/

/-- Records a problem.  An error makes the table invalid for good, a warning does not. -/
def report (t : Table) (r : Report) : Table :=
  { t with
    validity := if r.isWarning then t.validity else t.validity.falsify
    reports := t.reports ++ [r] }

def reportAll (t : Table) (rs : List Report) : Table := rs.foldl report t

/-- Reports that `name` is already defined by the symbol `previous`. -/
def reportDuplicate (t : Table) (names : Interner) (location : Location) (name : Name)
    (previous : SymbolId) : Table :=
  t.report ⟨location, .duplicateDefinition (names.text name) (t.symbolAt previous).location⟩

/-- The child of `parent` with the given name, which is created if there is none. -/
def childNamespace (t : Table) (parent : NamespaceId) (name : Name) : NamespaceId × Table :=
  match (t.namespaceAt parent).child? name with
  | some existing => (existing, t)
  | none =>
      let id : NamespaceId := ⟨t.namespaces.size⟩
      let node : Namespace :=
        { name, parent := some parent, depth := (t.namespaceAt parent).depth + 1 }
      let namespaces := t.namespaces.modify parent.index (·.addChild name id)
      (id, { t with namespaces := namespaces.push node })

/-- Registers a symbol under the next free handle.  If its namespace has a symbol of the same name
already, that one is returned as the error and the table stays as it is.  Symbols with the empty
name are not entered into their namespace. -/
def register (t : Table) (home : NamespaceId) (name : Name) (arity : Nat) (location : Location)
    (kind : SymbolKind) : Except SymbolId (SymbolId × Table) :=
  let id : SymbolId := ⟨t.symbols.size⟩
  let symbols := t.symbols.push { id, name, home, arity, location, kind }
  if name.isEmpty then .ok (id, { t with symbols })
  else
    match (t.namespaceAt home).addSymbol name id with
    | .error existing => .error existing
    | .ok node =>
        .ok (id, { t with symbols, namespaces := t.namespaces.modify home.index fun _ => node })

/-- Like `register`, leaving the table as it is if the name is taken. -/
def registerIfFree (t : Table) (home : NamespaceId) (name : Name) (arity : Nat)
    (location : Location) (kind : SymbolKind) : Table :=
  match t.register home name arity location kind with
  | .ok (_, t) => t
  | .error _ => t

/-- Registers a constructor or map and, under the next two handles, its companions: the sort and
the constant whose name is the data's name behind a hash sign. -/
def registerData (t : Table) (names : Interner) (home : NamespaceId) (name : Name) (arity : Nat)
    (location : Location) (shape : DataShape) (labels : List (Option Name)) (any : List Bool) :
    Except SymbolId (SymbolId × Interner × Table) :=
  let sort : SymbolId := ⟨t.symbols.size + 1⟩
  let typeConstant : SymbolId := ⟨t.symbols.size + 2⟩
  match t.register home name arity location (.data shape { labels, any, sort, typeConstant }) with
  | .error existing => .error existing
  | .ok (data, t) =>
      let t := t.registerIfFree home .empty 0 location (.userSort data none)
      let (hashed, names) := names.intern ("#" ++ names.text name)
      .ok (data, names, t.registerIfFree home hashed 0 location (.userConstant (.type sort)))

/-- Changes one symbol. -/
def updateSymbol (t : Table) (id : SymbolId) (f : Symbol → Symbol) : Table :=
  { t with symbols := t.symbols.modify id.index f }

def setOrigin (t : Table) (id : SymbolId) (origin : Origin) : Table :=
  t.updateSymbol id ({ · with origin := some origin })

/-- Marks a symbol whose declaration could not be resolved. -/
def markFailed (t : Table) (id : SymbolId) : Table := t.updateSymbol id ({ · with failed := true })

/-- Writes the canonical form of a symbol, which must not have one. -/
def setCanonical (t : Table) (id : SymbolId) (form : CanonicalForm) : Except Fault Table :=
  if (t.symbolAt id).canonical.isSome then .error (.formWrittenTwice id)
  else .ok (t.updateSymbol id ({ · with canonical := some form }))

/-- Writes the size of a sort, which must not have one. -/
def setSize (t : Table) (id : SymbolId) (size : SizeExpr) : Except Fault Table :=
  match t.kindOf id with
  | .userSort data none =>
      .ok (t.updateSymbol id ({ · with kind := .userSort data (some size) }))
  | _ => .error (.sizeWrittenTwice id)

/-! ## A table with the built-in symbols -/

/-- The built-in symbols: their names, arities and kinds. -/
def builtins : List (String × Nat × SymbolKind) :=
  BaseSort.all.map (fun sort => (sort.name, 0, .baseSort sort))
    ++ BaseOp.all.map (fun op => (op.name, op.arity, .baseOperator op))
    ++ [BaseConstant.true, .false].map (fun constant => (constant.name, 0, .baseConstant constant))

/-- Enters a built-in symbol into the root. -/
def addBuiltin (state : Interner × Table) (builtin : String × Nat × SymbolKind) :
    Interner × Table :=
  let (text, arity, kind) := builtin
  let (name, names) := state.1.intern text
  (names, state.2.registerIfFree .root name arity .generated kind)

/-- The table of a module of which nothing is known yet. -/
def create (names : Interner) (id : TableId) (module : Name) (kind : ModuleKind) (file : Name) :
    Interner × Table :=
  builtins.foldl addBuiltin
    (names, { id, module, kind, file, dependencies := ⟨[(module, id)]⟩ })

end Table

end ManySorted
