import ManySorted.Table.Basic

/-!
# Resolving names

A path `a.b.c` asks for a symbol `c` in a namespace whose path ends with `a.b`.  Pairs of a
namespace and a number of segments that are matched so far wait in a queue: a pair that has matched
all of `a.b` looks for `c`, each other one follows the next segment to a child, and while nothing is
matched every child is searched as well.

The first match is the candidate, and a second, different one of the same depth makes the name
ambiguous.  The search ends with the first namespace that is deeper than the candidate, so the
shallowest match wins.  What is not found below the preferred namespace is looked for once more from
the root.
-/

namespace ManySorted

universe u

/-- The outcome of looking something up. -/
inductive Resolution (α : Type u) where
  | found (a : α)
  /-- Two different matches of the least depth. -/
  | ambiguous (first second : α)
  | notFound
deriving DecidableEq, Repr

namespace Resolution

variable {α : Type u}

def found? : Resolution α → Option α
  | found a => some a
  | _ => none

end Resolution

/-- A namespace that is reached by a search, and how many segments of the qualifier are matched by
it and the namespaces above it. -/
structure SearchPoint where
  ns : NamespaceId
  matched : Nat
deriving DecidableEq, Repr

/-- What a search has found so far. -/
structure Finding (α : Type u) where
  /-- The first match and its depth. -/
  candidate : Option (α × Nat) := none
  /-- The first other match of that depth. -/
  witness : Option α := none
deriving DecidableEq, Repr

namespace Finding

variable {α : Type u}

/-- Takes note of a match at the given depth. -/
def note [DecidableEq α] (f : Finding α) (found : α) (depth : Nat) : Finding α :=
  match f.candidate with
  | none => { f with candidate := some (found, depth) }
  | some (first, least) =>
      if least = depth ∧ first ≠ found ∧ f.witness.isNone then { f with witness := some found }
      else f

/-- Whether what lies at the given depth is deeper than the candidate. -/
def isBelow (f : Finding α) (depth : Nat) : Bool := f.candidate.any fun c => c.2 < depth

def resolution (f : Finding α) : Resolution α :=
  match f.candidate, f.witness with
  | some (first, _), some second => .ambiguous first second
  | some (first, _), none => .found first
  | none, _ => .notFound

end Finding

namespace Table

/-- The points that wait behind a point: the child named by the next segment, and, while no segment
is matched, every child. -/
def nextPoints (t : Table) (qualifier : List Name) (point : SearchPoint) : List SearchPoint :=
  let node := t.namespaceAt point.ns
  let followed :=
    match qualifier[point.matched]? with
    | some segment => (node.child? segment).toList.map fun child => ⟨child, point.matched + 1⟩
    | none => []
  let spawned := if point.matched = 0 then node.childList.map fun child => ⟨child, 0⟩ else []
  followed ++ spawned

/-- What matches at a point. -/
def matchOf {α : Type u} (qualifier : List Name) (matchAt : NamespaceId → Option α)
    (point : SearchPoint) : Option α :=
  if point.matched = qualifier.length then matchAt point.ns else none

/-- Takes the points of the queue in turn, at most `fuel` of them. -/
def searchQueue {α : Type u} [DecidableEq α] (t : Table) (qualifier : List Name)
    (matchAt : NamespaceId → Option α) : Nat → List SearchPoint → Finding α → Finding α
  | 0, _, f => f
  | _ + 1, [], f => f
  | fuel + 1, point :: queue, f =>
      let depth := (t.namespaceAt point.ns).depth
      if f.isBelow depth then f
      else
        let f := match matchOf qualifier matchAt point with
          | some found => f.note found depth
          | none => f
        t.searchQueue qualifier matchAt fuel (queue ++ t.nextPoints qualifier point) f

/-- Searches for the least deep match below `start`.  A pair of a namespace and a number of matched
segments waits in the queue only once. -/
def search {α : Type u} [DecidableEq α] (t : Table) (start : NamespaceId) (qualifier : List Name)
    (matchAt : NamespaceId → Option α) : Resolution α :=
  (t.searchQueue qualifier matchAt (t.namespaces.size * (qualifier.length + 1)) [⟨start, 0⟩]
    {}).resolution

/-- Searches below the preferred namespace and then, if nothing was found, below the root. -/
def searchPreferring {α : Type u} [DecidableEq α] (t : Table) (preferred : Option NamespaceId)
    (qualifier : List Name) (matchAt : NamespaceId → Option α) : Resolution α :=
  match t.search (preferred.getD .root) qualifier matchAt with
  | .notFound => t.search .root qualifier matchAt
  | resolution => resolution

/-- Resolves a path to a symbol that passes the filter. -/
def resolveSymbol (t : Table) (path : List Name) (preferred : Option NamespaceId)
    (filter : Symbol → Bool) : Resolution SymbolId :=
  match path.getLast? with
  | none => .notFound
  | some last =>
      t.searchPreferring preferred path.dropLast fun ns =>
        ((t.namespaceAt ns).symbol? last).filter fun id => filter (t.symbolAt id)

/-- Resolves a path to a namespace. -/
def resolveNamespace (t : Table) (path : List Name) (preferred : Option NamespaceId) :
    Resolution NamespaceId :=
  if path = [] then .found (preferred.getD .root)
  else t.searchPreferring preferred path some

/-- The filter that all symbols pass. -/
def anySymbol (_ : Symbol) : Bool := true

/-- The filter for symbols that a type term may name. -/
def typeDefining (s : Symbol) : Bool := s.kind.isTypeDefining

/-- Resolves an identifier of the module from the root. -/
def resolveId (t : Table) (id : QualifiedId) (filter : Symbol → Bool) : Resolution SymbolId :=
  t.resolveSymbol id.segments none filter

/-- Resolves a dotted text.  A segment that was never interned names nothing. -/
def lookup (t : Table) (names : Interner) (dotted : String) : Resolution SymbolId :=
  match names.path? dotted with
  | some path => t.resolveSymbol path none anySymbol
  | none => .notFound

/-- The symbol that an identifier names, or the problem with it.  If `usage` says what the
identifier is used as, one that resolves without the filter is not undefined but misused. -/
def resolveOrProblem (t : Table) (names : Interner) (id : QualifiedId) (filter : Symbol → Bool)
    (usage : Option String) : Except Problem SymbolId :=
  let name := names.join id.segments
  match t.resolveId id filter with
  | .found symbol => .ok symbol
  | .ambiguous first second =>
      .error (.ambiguousSymbol name (t.symbolAt first).location (t.symbolAt second).location)
  | .notFound =>
      match usage, (t.resolveId id anySymbol).found? with
      | some usage, some _ => .error (.badId name usage)
      | _, _ => .error (.undefinedSymbol name)

/-! ## Symbols of other tables -/

/-- How the path of a foreign symbol is changed before it is followed. -/
structure ForeignPath where
  /-- The first segment, in place of the foreign module's name.  Without it the path starts at the
  root. -/
  rename : Option Name := none
  /-- Whether the namespace next to the symbol is left out. -/
  dropParent : Bool := false
deriving DecidableEq, Repr

/-- The namespace that a path leads to from `ns`. -/
def descend? (t : Table) : NamespaceId → List Name → Option NamespaceId
  | ns, [] => some ns
  | ns, segment :: rest =>
      match (t.namespaceAt ns).child? segment with
      | some child => t.descend? child rest
      | none => none

/-- The local symbol at the place of a foreign one, if it has the same arity.  For a companion sort
it is the sort of the symbol at the place of its data symbol. -/
def resolveForeign (t foreign : Table) (symbol : SymbolId) (path : ForeignPath) :
    Option SymbolId :=
  let named := foreign.bearer symbol
  let namespaces := path.rename.toList ++ foreign.path named.home
  let qualifier := if path.dropParent then namespaces.dropLast else namespaces
  match (t.descend? .root qualifier).bind fun ns => (t.namespaceAt ns).symbol? named.name with
  | none => none
  | some found =>
      if (t.symbolAt found).arity ≠ named.arity then none
      else if (foreign.dataOf? symbol).isSome then t.sortOf? found
      else some found

end Table

end ManySorted
