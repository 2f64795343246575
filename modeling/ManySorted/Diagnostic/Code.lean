/-!
# Diagnostic codes

Every problem has a stable code: a letter for the severity and four digits, of which the first
gives the stage of checking (1 names, 2 type declarations, 3 sizes and contracts, 4 composition).
-/

namespace ManySorted

/-- What a diagnostic is about. -/
inductive DiagnosticCode where
  /-- A name does not resolve. -/
  | undefinedSymbol
  /-- A name resolves to two symbols of equal depth. -/
  | ambiguousSymbol
  /-- A name is already defined in its namespace. -/
  | duplicateDefinition
  /-- An identifier stands where it is not allowed. -/
  | badIdentifier
  /-- A field label is also the name of a namespace. -/
  | labelClash
  /-- A type declaration is empty or accepts no finite terms. -/
  | badTypeDeclaration
  /-- New data takes derived data as an argument. -/
  | argumentNewness
  /-- New data takes derived data through a union. -/
  | subArgumentNewness
  /-- A transform parameter accepts new data of an output. -/
  | transformNewness
  /-- The kind of a map cannot hold for the sizes of its arguments. -/
  | totality
  /-- A relational position lies on a cycle. -/
  | relationalRecursion
  /-- A cardinality contract is about data that is not new. -/
  | cardinalityNewness
  /-- A module may not be composed as it is. -/
  | badComposition
  /-- A cardinality contract always holds or never does. -/
  | cardinalityContract
deriving DecidableEq, Repr

namespace DiagnosticCode

/-- All codes, in order. -/
def all : List DiagnosticCode :=
  [undefinedSymbol, ambiguousSymbol, duplicateDefinition, badIdentifier, labelClash,
   badTypeDeclaration, argumentNewness, subArgumentNewness, transformNewness,
   totality, relationalRecursion, cardinalityNewness, badComposition, cardinalityContract]

/-- The code as it is written. -/
def text : DiagnosticCode → String
  | undefinedSymbol => "E1001"
  | ambiguousSymbol => "E1002"
  | duplicateDefinition => "E1003"
  | badIdentifier => "E1004"
  | labelClash => "E1005"
  | badTypeDeclaration => "E2001"
  | argumentNewness => "E2002"
  | subArgumentNewness => "E2003"
  | transformNewness => "E2004"
  | totality => "E3001"
  | relationalRecursion => "E3002"
  | cardinalityNewness => "E3003"
  | badComposition => "E4001"
  | cardinalityContract => "W3001"

/-- A short title, which labels the place of a diagnostic. -/
def title : DiagnosticCode → String
  | undefinedSymbol => "undefined symbol"
  | ambiguousSymbol => "ambiguous symbol"
  | duplicateDefinition => "duplicate definition"
  | badIdentifier => "bad identifier"
  | labelClash => "label clash"
  | badTypeDeclaration => "bad type declaration"
  | argumentNewness => "argument newness"
  | subArgumentNewness => "sub-argument newness"
  | transformNewness => "transform newness"
  | totality => "totality"
  | relationalRecursion => "relational recursion"
  | cardinalityNewness => "cardinality newness"
  | badComposition => "bad composition"
  | cardinalityContract => "cardinality contract"

/-- The position of a code among all of them. -/
def index (code : DiagnosticCode) : Nat := all.idxOf code

/-- Codes are ordered as they are listed. -/
instance : Ord DiagnosticCode := ⟨fun a b => compare a.index b.index⟩

/-- Whether a problem of this code leaves the module valid. -/
def isWarning (code : DiagnosticCode) : Bool := code == cardinalityContract

/-- Whether the code is about names and identifiers. -/
def isNameError : DiagnosticCode → Bool
  | undefinedSymbol | ambiguousSymbol | duplicateDefinition | badIdentifier | labelClash => true
  | _ => false

/-- Whether the code is an error about sizes and contracts. -/
def isSizeError : DiagnosticCode → Bool
  | totality | relationalRecursion | cardinalityNewness => true
  | _ => false

end DiagnosticCode

end ManySorted
