import ManySorted.Draft

/-!
# Contracts

A contract bounds the number of facts of new data, or names conditions that have to hold.  It
becomes a rule.  A bound that the size of the data decides already is worth a warning.
-/

namespace ManySorted

/-- The head of the rule of a contract. -/
def ContractKind.head : ContractKind → String
  | .requires => "%requires"
  | .ensures => "%ensures"
  | .conforms => "%conforms"

namespace Cardinality

/-- The number that the facts are compared with. -/
def bound : Cardinality → Nat
  | .some => 1
  | .atLeast n | .atMost n => n

/-- The comparison of the number of facts with the bound. -/
def comparison : Cardinality → String
  | .some | .atLeast _ => ">="
  | .atMost _ => "<="

/-- What is odd about a bound on data of at most `size` values. -/
def oddity? (c : Cardinality) (name : String) (size : Nat) : Option String :=
  match c with
  | .some | .atLeast _ =>
      if size < c.bound then Option.some s!"can never hold: `{name}` has at most {size} values"
      else none
  | .atMost n =>
      if size ≤ n then Option.some s!"always holds: `{name}` has at most {size} values" else none

end Cardinality

/-- What checking a contract yields. -/
structure ContractOutcome where
  reports : List Report := []
  rules : List Rule := []

namespace Table

/-- Checks a bound on the facts of a symbol. -/
def checkCardinality (t : Table) (names : Interner) (location : Location) (kind : ContractKind)
    (c : Cardinality) (symbol : SymbolId) : ContractOutcome :=
  let name := t.qualifiedName names symbol
  if !(t.kindOf symbol).isNew then { reports := [⟨location, .cardinalityNewness name⟩] }
  else
    let size := ((t.sortOf? symbol).bind fun sort => (t.symbolAt sort).size?).bind SizeExpr.closed
    { reports := (size.bind (c.oddity? name)).toList.map fun reason =>
        ⟨location, .cardinalityContract name reason⟩
      rules := [{ kind := .contract kind, subject := symbol, head := kind.head,
                  body := [s!"count({name}) {c.comparison} {c.bound}"] }] }

/-- The condition that an identifier names, or the problem with it. -/
def condition (t : Table) (names : Interner) (id : QualifiedId) : Except Problem SymbolId := do
  let symbol ← t.resolveOrProblem names id anySymbol none
  match t.kindOf symbol with
  | .userConstant .derived | .baseConstant _ => return symbol
  | _ => throw (.badId (names.join id.segments) "a contract condition")

/-- Checks that all conditions of a contract are conditions. -/
def checkConditions (t : Table) (names : Interner) (location : Location) (kind : ContractKind)
    (ids : List QualifiedId) : ContractOutcome :=
  let conditions := ids.map (t.condition names)
  let problems := conditions.filterMap fun | .error problem => some problem | .ok _ => none
  let symbols := conditions.filterMap fun | .ok symbol => some symbol | .error _ => none
  match problems, symbols with
  | [], subject :: _ =>
      { rules := [{ kind := .contract kind, subject, head := kind.head,
                    body := symbols.map (t.qualifiedName names) }] }
  | _, _ => { reports := problems.map (⟨location, ·⟩) }

/-- Checks a contract. -/
def checkContract (t : Table) (names : Interner) (m : Module) (contract : ContractDecl) :
    ContractOutcome :=
  let location := m.locate contract.span
  match contract.item with
  | .cardinality c sort =>
      match t.resolveOrProblem names sort typeDefining none with
      | .ok symbol => t.checkCardinality names location contract.kind c symbol
      | .error problem => { reports := [⟨location, problem⟩] }
  | .holds ids => t.checkConditions names location contract.kind ids

end Table

/-- Checks a contract and adds its rule. -/
def Draft.checkContract (m : Module) (contract : ContractDecl) : DraftM Unit := do
  tick
  modify fun d =>
    let outcome := d.table.checkContract d.names m contract
    let table := d.table.reportAll outcome.reports
    { d with table := { table with rules := table.rules ++ outcome.rules } }

end ManySorted
