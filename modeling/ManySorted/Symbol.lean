import ManySorted.Size
import ManySorted.Syntax.Module

/-!
# Symbols

What a table holds: the built-in sorts, operators and constants, and the user's data, sorts, unions
and constants.  A constructor or map comes with two companions, its sort and the constant that
stands for its type.
-/

namespace ManySorted

/-- What a map demands of its relation. -/
structure MapFlags where
  /-- At most one codomain tuple for each domain tuple. -/
  functional : Bool := true
  /-- Distinct domain tuples have distinct codomain tuples. -/
  injective : Bool
  /-- Every domain tuple is mapped. -/
  total : Bool
  /-- Every codomain tuple is hit. -/
  surjective : Bool
deriving DecidableEq, Repr

namespace MapFlags

def ofKind (kind : MapKind) (isPartial : Bool) : MapFlags where
  injective := kind == .injection || kind == .bijection
  total := !isPartial
  surjective := kind == .surjection || kind == .bijection

/-- The demands as binary digits, `functional` being the lowest. -/
def bits (flags : MapFlags) : Nat :=
  flags.functional.toNat + 2 * flags.injective.toNat + 4 * flags.total.toNat
    + 8 * flags.surjective.toNat

end MapFlags

/-- A built-in operator. -/
inductive BaseOp where
  | count
  | max
  | min
  | and
  | or
  | not
  | toString
  | strLength
  /-- The relation between a data type, a position and what the position accepts, by which rules
  about positions are phrased. -/
  | subConstraint
deriving DecidableEq, Repr

namespace BaseOp

def all : List BaseOp := [count, max, min, and, or, not, toString, strLength, subConstraint]

def name : BaseOp → String
  | count => "count"
  | max => "max"
  | min => "min"
  | and => "and"
  | or => "or"
  | not => "not"
  | toString => "toString"
  | strLength => "strLength"
  | subConstraint => "%sub"

def arity : BaseOp → Nat
  | count | not | toString | strLength => 1
  | max | min | and | or => 2
  | subConstraint => 3

end BaseOp

/-- A built-in constant. -/
inductive BaseConstant where
  | true
  | false
deriving DecidableEq, Repr

def BaseConstant.name : BaseConstant → String
  | .true => "TRUE"
  | .false => "FALSE"

/-- A union that every module has without declaring it. -/
inductive Convenience where
  /-- All data, constants and base sorts. -/
  | any
  /-- All data. -/
  | data
  /-- All constants. -/
  | constant
deriving DecidableEq, Repr

namespace Convenience

def all : List Convenience := [any, data, constant]

def name : Convenience → String
  | any => "Any"
  | data => "Data"
  | constant => "Constant"

end Convenience

/-- What a constant of the user is. -/
inductive ConstantKind where
  /-- Declared by an enumeration. -/
  | enumerated
  /-- A condition that rules define. -/
  | derived
  /-- Names a fact of a model. -/
  | symbolic
  /-- A value parameter of a transform. -/
  | parameter
  /-- The type of a constructor or map as a value. -/
  | type (sort : SymbolId)
deriving DecidableEq, Repr

namespace ConstantKind

/-- Whether coercion looks inside the constant. -/
def isTypeValued : ConstantKind → Bool
  | derived | type _ => true
  | _ => false

/-- Whether importing puts the constant into the root rather than under a renaming. -/
def mergesIntoRoot : ConstantKind → Bool
  | enumerated | symbolic => true
  | _ => false

end ConstantKind

/-- How the facts of a data symbol arise. -/
inductive DataShape where
  | constructor (isNew : Bool)
  /-- The first `domainArity` positions are the domain, the others the codomain. -/
  | map (kind : MapKind) (isPartial : Bool) (domainArity : Nat)
deriving DecidableEq, Repr

/-- What constructors and maps have in common. -/
structure DataInfo where
  labels : List (Option Name)
  /-- For each position, whether it is marked `any`. -/
  any : List Bool
  /-- The companion sort. -/
  sort : SymbolId
  /-- The companion constant. -/
  typeConstant : SymbolId
deriving DecidableEq, Repr

/-- What a symbol is. -/
inductive SymbolKind where
  | baseSort (sort : BaseSort)
  | baseOperator (op : BaseOp)
  | baseConstant (constant : BaseConstant)
  /-- The sort of a constructor or map; its size is written once it is known. -/
  | userSort (data : SymbolId) (size : Option SizeExpr)
  /-- A constructor or a map. -/
  | data (shape : DataShape) (info : DataInfo)
  | union (convenience : Option Convenience)
  | userConstant (kind : ConstantKind)
deriving Repr

/-- What is read where there is no symbol: a kind that has no companions and takes part in
nothing. -/
instance : Inhabited SymbolKind := ⟨.baseOperator .count⟩

/-- The kinds of symbols without their details. -/
inductive KindTag where
  | baseSort
  | baseOperator
  | baseConstant
  | userSort
  | constructor
  | map
  | union
  | userConstant
deriving DecidableEq, Repr

namespace SymbolKind

def tag : SymbolKind → KindTag
  | baseSort _ => .baseSort
  | baseOperator _ => .baseOperator
  | baseConstant _ => .baseConstant
  | userSort .. => .userSort
  | data (.constructor _) _ => .constructor
  | data (.map ..) _ => .map
  | union _ => .union
  | userConstant _ => .userConstant

/-- Whether a type term may name the symbol. -/
def isTypeDefining : SymbolKind → Bool
  | baseSort _ | data .. | union _ => true
  | _ => false

def isData : SymbolKind → Bool
  | data .. => true
  | _ => false

def isUnion : SymbolKind → Bool
  | union _ => true
  | _ => false

/-- What a constructor or map has in common with the others. -/
def info? : SymbolKind → Option DataInfo
  | data _ info => some info
  | _ => none

/-- Whether facts may be given by a model: so it is for new constructors and for maps. -/
def isNew : SymbolKind → Bool
  | data (.constructor isNew) _ => isNew
  | data (.map ..) _ => true
  | _ => false

def labels (kind : SymbolKind) : List (Option Name) :=
  match kind.info? with
  | some info => info.labels
  | none => []

def anyMarks (kind : SymbolKind) : List Bool :=
  match kind.info? with
  | some info => info.any
  | none => []

/-- Whether a position is marked `any`. -/
def isAny (kind : SymbolKind) (position : Nat) : Bool := kind.anyMarks.getD position false

def convenience? : SymbolKind → Option Convenience
  | union convenience => convenience
  | _ => none

/-- Whether the symbol is a constant that importing puts into the root. -/
def mergesIntoRoot : SymbolKind → Bool
  | userConstant kind => kind.mergesIntoRoot
  | _ => false

/-- Whether coercion is defined for the symbol: so it is for sorts and type-valued constants. -/
def isCoercible : SymbolKind → Bool
  | userSort .. => true
  | userConstant kind => kind.isTypeValued
  | _ => false

end SymbolKind

/-- Where an imported symbol was first declared. -/
structure Origin where
  table : TableId
  symbol : SymbolId
deriving DecidableEq, Repr

/-- A registered symbol. -/
structure Symbol where
  id : SymbolId
  /-- Companion sorts have the empty name and are not found by name. -/
  name : Name
  home : NamespaceId
  arity : Nat
  location : Location
  kind : SymbolKind
  canonical : Option CanonicalForm := none
  /-- Given for symbols that come from another table. -/
  origin : Option Origin := none
  /-- Whether the declaration could not be resolved. -/
  failed : Bool := false
deriving Repr, Inhabited

namespace Symbol

def isImported (s : Symbol) : Bool := s.origin.isSome

/-- The size of a sort, once it is known. -/
def size? (s : Symbol) : Option SizeExpr :=
  match s.kind with
  | .userSort _ size => size
  | _ => none

/-- What a position of the symbol accepts, if its form is known. -/
def accepted? (s : Symbol) (position : Nat) : Option AcceptedValues :=
  s.canonical.bind (·.get? position)

end Symbol

end ManySorted
