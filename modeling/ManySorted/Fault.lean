import ManySorted.Ids

/-!
# Faults

A fault is a broken invariant of the checker itself, as opposed to a problem of the module that is
checked.  A pass stops early for a fault or because it was cancelled.
-/

namespace ManySorted

/-- A broken invariant of the checker. -/
inductive Fault where
  /-- A decision taken as `old` was to be taken as `new`. -/
  | decisionReversed (old new : Bool)
  /-- The canonical form of a symbol was written a second time. -/
  | formWrittenTwice (symbol : SymbolId)
  /-- The size of a sort was written a second time, or the symbol is no sort. -/
  | sizeWrittenTwice (symbol : SymbolId)
  /-- A coercion was asked for a symbol that has none. -/
  | notCoercible (symbol : SymbolId)
  /-- An imported symbol is not found under its new path. -/
  | relabelFailed (path : String)
deriving DecidableEq, Repr

/-- The wording of a fault. -/
def Fault.message : Fault → String
  | .decisionReversed old new => s!"decision already resolved to {old}, cannot resolve to {new}"
  | .formWrittenTwice symbol => s!"canonical form of symbol {symbol.index} written twice"
  | .sizeWrittenTwice symbol => s!"size of sort {symbol.index} written twice"
  | .notCoercible symbol => s!"symbol {symbol.index} is not a sort or type-valued constant"
  | .relabelFailed path => s!"relabeling `{path}` failed after it type-checked"

/-- Why a pass stopped early. -/
inductive Abort where
  | cancelled
  | fault (fault : Fault)
deriving DecidableEq, Repr

end ManySorted
