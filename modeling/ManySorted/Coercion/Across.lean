import ManySorted.Coercion.Basic
import ManySorted.Import

/-!
# Coercion between tables

To compare a sort of one table with that of another, both tables are imported into a table made for
the purpose, under names that no module can use, and compared there.
-/

namespace ManySorted

/-- Imports a valid table under a name for comparison, and returns its namespace. -/
def Draft.embedUnder (rename : String) (foreign : Table) : DraftM (Option NamespaceId) := do
  let name ← intern rename
  if foreign.isValid then embed foreign (some name) {}
  return ((← getTable).namespaceAt .root).child? name

/-- The symbol that a path relative to `home` names, if it lies there and can be coerced.  A data
symbol is taken for its sort. -/
def Table.coercibleAt? (t : Table) (names : Interner) (home : NamespaceId) (path : String) :
    Option SymbolId := do
  let segments ← names.path? path
  let found ← (t.resolveSymbol segments (some home) anySymbol).found?
  let symbol := (t.sortOf? found).getD found
  if t.isWithin (t.symbolAt found).home home && (t.kindOf symbol).isCoercible then some symbol
  else none

/-- Imports both tables and compares what `path` names in the first. -/
def Draft.compareAcross (left right : Table) (path : String) : DraftM Bool := do
  let some source ← embedUnder "%a" left | return false
  let some target ← embedUnder "%b" right | return false
  let d ← get
  match d.table.coercibleAt? d.names source path with
  | none => return false
  | some symbol =>
      match d.table.coerce symbol source target {} with
      | .ok answer _ => return answer.coercible
      | .error fault _ => throw (.fault fault)

/-- Whether values of the sort that `path` names in `left` can be used in `right`.  The handles of
the table made for the comparison mean nothing outside, so there is no target. -/
def coerceAcross (names : Interner) (left right : Table) (path : String) :
    Interner × Except Abort Coercibility :=
  let (module, names) := names.intern "%scratch"
  let (names, table) := Table.create names ⟨0⟩ module .transformSystem module
  match Draft.compareAcross left right path { names, table } with
  | .ok coercible d => (d.names, .ok ⟨coercible, none⟩)
  | .error abort d => (d.names, .error abort)

end ManySorted
