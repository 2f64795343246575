import ManySorted.Declaration.Basic

/-!
# Resolved positions

The type terms of a position are resolved one after the other, and every problem among them is
noted.  A position without problems has members: values that are known at once, and unions whose
own members are filled in later.
-/

namespace ManySorted

/-- A member of a position whose names are resolved. -/
inductive Member where
  | values (values : AcceptedValues)
  | union (union : SymbolId)
deriving DecidableEq, Repr

/-- A position, or a part of one, whose names are resolved. -/
structure Position where
  members : List Member := []
  /-- Every symbol that a term or enumeration element resolved to. -/
  refs : List SymbolId := []
  problems : List Report := []
deriving DecidableEq, Repr

namespace Position

instance : EmptyCollection Position := ⟨{}⟩

/-- Whether every name resolved to something that fits. -/
def isOk (p : Position) : Bool := p.problems.isEmpty

def append (p q : Position) : Position where
  members := p.members ++ q.members
  refs := p.refs ++ q.refs
  problems := p.problems ++ q.problems

end Position

/-- What resolving the terms of a declaration draws on. -/
structure Scope where
  names : Interner
  table : Table
  /-- The file of the module. -/
  file : Name
  /-- The name of the declaration. -/
  owner : String

namespace Scope

/-- What a type-defining symbol contributes to a position. -/
def memberOf (scope : Scope) (symbol : SymbolId) : Member :=
  match scope.table.kindOf symbol with
  | .baseSort base => .values ((∅ : AcceptedValues).addBase (.singleton base))
  | .union _ => .union symbol
  | .data _ info => .values ((∅ : AcceptedValues).addSort info.sort)
  | _ => .values ∅

/-- Resolves a type named by an identifier. -/
def resolveType (scope : Scope) (id : QualifiedId) : Position :=
  match scope.table.resolveOrProblem scope.names id Table.typeDefining (some "a type") with
  | .ok symbol => { members := [scope.memberOf symbol], refs := [symbol] }
  | .error problem => { problems := [⟨⟨scope.file, id.span⟩, problem⟩] }

/-- An enumeration as far as it is read: its values, the constants it names, its problems. -/
structure Reading where
  values : AcceptedValues := ∅
  refs : List SymbolId := []
  problems : List Report := []

/-- Reads on past a problem. -/
def Reading.fail (r : Reading) (location : Location) (problem : Problem) : Reading :=
  { r with problems := r.problems ++ [⟨location, problem⟩] }

/-- Reads one more element of an enumeration. -/
def readElement (scope : Scope) (r : Reading) : EnumElement → Reading
  | .constant id =>
      let location : Location := ⟨scope.file, id.span⟩
      match scope.table.resolveOrProblem scope.names id Table.anySymbol none with
      | .error problem => r.fail location problem
      | .ok symbol =>
          match scope.table.kindOf symbol with
          | .userConstant _ | .baseConstant _ =>
              { r with values := r.values.addConstant symbol, refs := r.refs ++ [symbol] }
          | _ =>
              r.fail location (.badId (scope.names.join id.segments) "an enumeration constant")
  | .literal (.integer value) _ => { r with values := r.values.addInteger value }
  | .literal (.string value) _ => { r with values := r.values.addString value }
  | .range low high span =>
      if low ≤ high then { r with values := r.values.addRange low high }
      else
        r.fail ⟨scope.file, span⟩
          (.badTypeDecl scope.owner s!"has the empty range {low}..{high}")

/-- Resolves one term. -/
def resolveTerm (scope : Scope) : TypeTerm → Position
  | .named id => scope.resolveType id
  | .enumeration elements _ =>
      let r := elements.foldl scope.readElement {}
      { members := [.values r.values], refs := r.refs, problems := r.problems }

/-- Resolves all the terms of a position. -/
def resolvePosition (scope : Scope) (terms : List TypeTerm) : Position :=
  terms.foldl (fun p term => p.append (scope.resolveTerm term)) ∅

end Scope

/-- A type declaration whose positions are resolved. -/
structure ResolvedType where
  symbol : SymbolId
  positions : List Position
deriving DecidableEq, Repr

namespace ResolvedType

/-- Every symbol that the declaration refers to. -/
def refs (d : ResolvedType) : List SymbolId := d.positions.flatMap Position.refs

/-- The members of all positions together. -/
def members (d : ResolvedType) : List Member := d.positions.flatMap Position.members

end ResolvedType

/-- A value parameter whose type is resolved; it has no type if that failed. -/
structure ResolvedParam where
  symbol : SymbolId
  type : Option Position
deriving DecidableEq, Repr

/-- Marks a data symbol together with its sort as failed. -/
def Table.markFamilyFailed (t : Table) (symbol : SymbolId) : Table :=
  let t := t.markFailed symbol
  match (t.kindOf symbol).info? with
  | some info => t.markFailed info.sort
  | none => t

namespace Draft

/-- The scope of a declaration. -/
def scopeOf (m : Module) (owner : Name) : DraftM Scope := do
  let d ← get
  return { names := d.names, table := d.table, file := m.file, owner := d.names.text owner }

/-- Resolves a type declaration, reports its problems and marks it as failed if it has any. -/
def resolveType (m : Module) (d : Declaration) : DraftM ResolvedType := do
  tick
  let scope ← scopeOf m d.decl.name
  let positions := d.decl.body.positions.map scope.resolvePosition
  modifyTable (·.reportAll (positions.flatMap Position.problems))
  if !positions.all Position.isOk then modifyTable (·.markFamilyFailed d.symbol)
  return { symbol := d.symbol, positions }

/-- Resolves the type of a value parameter in the same way. -/
def resolveParam (m : Module) (p : Parameter) : DraftM ResolvedParam := do
  let scope ← scopeOf m p.name
  let position := scope.resolvePosition p.type
  modifyTable (·.reportAll position.problems)
  if position.isOk then return { symbol := p.symbol, type := some position }
  else
    modifyTable (·.markFailed p.symbol)
    return { symbol := p.symbol, type := none }

/-- One round of spreading failures: the declarations that refer to a failed symbol fail as well.
Says whether there were any. -/
def spreadFailuresOnce (types : List ResolvedType) : DraftM Bool := do
  let failing ← types.filterM fun d => do
    tick
    let t ← getTable
    return !(t.symbolAt d.symbol).failed && d.refs.any fun r => (t.symbolAt r).failed
  modifyTable fun t => failing.foldl (fun t d => t.markFamilyFailed d.symbol) t
  return !failing.isEmpty

/-- Spreads failures until nothing changes, in at most the given number of rounds. -/
def spreadFailures (types : List ResolvedType) : Nat → DraftM Unit
  | 0 => return
  | rounds + 1 => do
      if ← spreadFailuresOnce types then spreadFailures types rounds

/-- A parameter that refers to a failed symbol fails as well. -/
def spreadToParam (p : ResolvedParam) : DraftM ResolvedParam := do
  let t ← getTable
  match p.type with
  | some position =>
      if position.refs.any fun r => (t.symbolAt r).failed then
        modifyTable (·.markFailed p.symbol)
        return { p with type := none }
      else return p
  | none => return p

end Draft

end ManySorted
