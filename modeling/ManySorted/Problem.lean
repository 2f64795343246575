import ManySorted.Diagnostic.Basic

/-!
# Problems of a module

A problem is something wrong with the module that is checked.  Problems are collected while
checking goes on, and become diagnostics at the end.  Symbols appear in them by their dotted names.
-/

namespace ManySorted

/-- What is wrong. -/
inductive Problem where
  | undefinedSymbol (name : String)
  | ambiguousSymbol (name : String) (first second : Location)
  | badComposition (reason : String)
  | badId (id usage : String)
  | duplicateDefinition (name : String) (previous : Location)
  | totality (map reason : String)
  | relational (sort position : String)
  | cardinalityNewness (sort : String)
  | cardinalityContract (sort reason : String)
  | transformNewness (param sort : String)
  | labelClash (label : String)
  | badTypeDecl (name reason : String)
  | argumentNewness (symbol arg : String)
  | subArgumentNewness (symbol arg via : String)
deriving DecidableEq, Repr

namespace Problem

/-- The wording of a problem. -/
def message : Problem → String
  | undefinedSymbol name => s!"undefined symbol `{name}`"
  | ambiguousSymbol name _ _ => s!"`{name}` is ambiguous"
  | badComposition reason => s!"bad composition: {reason}"
  | badId id usage => s!"`{id}` cannot be used as {usage}"
  | duplicateDefinition name _ => s!"`{name}` is already defined"
  | totality map reason => s!"`{map}` {reason}"
  | relational sort position =>
      s!"`{sort}` recursively depends on itself through the non-relational position `{position}`"
  | cardinalityNewness sort =>
      s!"cardinality contract over `{sort}`, which is not constructed with `new`"
  | cardinalityContract sort reason => s!"cardinality contract over `{sort}` {reason}"
  | transformNewness param sort =>
      s!"transform parameter `{param}` accepts `new` data `{sort}` of an output"
  | labelClash label => s!"field label `{label}` is also a namespace name"
  | badTypeDecl name reason => s!"`{name}` {reason}"
  | argumentNewness symbol arg =>
      s!"`new` data `{symbol}` takes derived data `{arg}` as an argument"
  | subArgumentNewness symbol arg via =>
      s!"`new` data `{symbol}` takes derived data `{arg}` through `{via}`"

def code : Problem → DiagnosticCode
  | undefinedSymbol .. => .undefinedSymbol
  | ambiguousSymbol .. => .ambiguousSymbol
  | badComposition .. => .badComposition
  | badId .. => .badIdentifier
  | duplicateDefinition .. => .duplicateDefinition
  | totality .. => .totality
  | relational .. => .relationalRecursion
  | cardinalityNewness .. => .cardinalityNewness
  | cardinalityContract .. => .cardinalityContract
  | transformNewness .. => .transformNewness
  | labelClash .. => .labelClash
  | badTypeDecl .. => .badTypeDeclaration
  | argumentNewness .. => .argumentNewness
  | subArgumentNewness .. => .subArgumentNewness

def isWarning (p : Problem) : Bool := p.code.isWarning

end Problem

/-- A problem at its place. -/
structure Report where
  location : Location
  problem : Problem
deriving DecidableEq, Repr

namespace Report

def isWarning (r : Report) : Bool := r.problem.isWarning

/-- Further places that a diagnostic points at. -/
def context : Problem → List Label
  | .ambiguousSymbol _ first second =>
      [{ location := first, message := "could refer to this", isPrimary := false },
       { location := second, message := "or to this", isPrimary := false }]
  | .duplicateDefinition _ previous =>
      [{ location := previous, message := "previously defined here", isPrimary := false }]
  | _ => []

/-- Advice that a diagnostic ends with. -/
def advice : Problem → List String
  | .relational .. => ["mark the position `any` or break the cycle"]
  | _ => []

/-- The diagnostic of a report; its place is labelled with the title of its code. -/
def toDiagnostic (r : Report) : Diagnostic where
  code := r.problem.code
  severity := if r.isWarning then .warning else .error
  message := r.problem.message
  labels := { location := r.location, message := r.problem.code.title } :: context r.problem
  notes := advice r.problem

end Report

end ManySorted
