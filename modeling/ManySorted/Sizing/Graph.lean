import ManySorted.Dependency
import ManySorted.Table.Basic

/-!
# The dependency graph of sizes

The size of a sort depends on the sizes of its positions, and the size of a position on those of
the sorts that it accepts.  An edge is marked if it may be used without bound; only the edge into a
relational codomain position of a map is not.
-/

namespace ManySorted

/-- Something that has a size. -/
inductive SizeNode where
  | sort (sort : SymbolId)
  | slot (sort : SymbolId) (position : Nat)
deriving DecidableEq, Repr

/-- Whether a position may be used without bound. -/
def SymbolKind.isUnbounded (kind : SymbolKind) (position : Nat) : Bool :=
  match kind with
  | .data (.map _ _ domainArity) _ => position < domainArity || kind.isAny position
  | _ => true

namespace Table

/-- The sorts of productive data of the module that a position accepts. -/
def ownSortsAt (t : Table) (productive : List SymbolId) (s : Symbol) (position : Nat) :
    List SymbolId :=
  match s.accepted? position with
  | none => []
  | some values =>
      values.sorts.toList.filter fun sort => (t.dataOf? sort).any productive.contains

/-- Adds a position of a data symbol, with what it depends on. -/
def addSlot (t : Table) (productive : List SymbolId) (s : Symbol) (sort : SymbolId)
    (g : DepGraph SizeNode) (position : Nat) : DepGraph SizeNode :=
  let slot : SizeNode := .slot sort position
  (t.ownSortsAt productive s position).foldl
    (fun g target => g.addEdge slot (.sort target) true)
    (g.addEdge (.sort sort) slot (s.kind.isUnbounded position))

/-- Adds the sort of a data symbol, with its positions. -/
def addSort (t : Table) (productive : List SymbolId) (g : DepGraph SizeNode) (data : SymbolId) :
    DepGraph SizeNode :=
  match t.sortOf? data with
  | none => g
  | some sort =>
      let s := t.symbolAt data
      (List.range s.arity).foldl (t.addSlot productive s sort) (g.addNode (.sort sort)).2

/-- The dependency graph of the sizes of productive data. -/
def sizeGraph (t : Table) (productive : List SymbolId) : DepGraph SizeNode :=
  productive.foldl (t.addSort productive) {}

end Table

end ManySorted
