import ManySorted.Accepted.Range
import ManySorted.Ids
import ManySorted.Name
import ManySorted.Ordered

/-!
# Accepted values and canonical forms

An argument position accepts a union of constants, integers, base sorts and data sorts.  Unions
are flattened into one record with a part for each, and every part is kept in a normal form, so
that positions which accept the same declared parts are equal.  A canonical form has one such
record for each position.
-/

namespace ManySorted

/-- The greatest count that is told apart from infinity. -/
def maxCount : Nat := 18446744073709551615

/-- A constant value that is no integer. -/
inductive ConstantValue where
  | string (value : Name)
  /-- A constant symbol. -/
  | symbol (id : SymbolId)
deriving DecidableEq, Repr

/-- Strings come before symbols. -/
instance : Ord ConstantValue where
  compare
    | .string a, .string b => compare a b
    | .string _, .symbol _ => .lt
    | .symbol _, .string _ => .gt
    | .symbol a, .symbol b => compare a b

/-- The values accepted at one position. -/
structure AcceptedValues where
  constants : OrderedSet ConstantValue := ∅
  /-- Integer literals and ranges. -/
  ranges : List IntRange := []
  base : BaseSortSet := ∅
  /-- The sorts of constructors and maps. -/
  sorts : OrderedSet SymbolId := ∅
deriving DecidableEq, Repr

namespace AcceptedValues

instance : EmptyCollection AcceptedValues := ⟨{}⟩

instance : Inhabited AcceptedValues := ⟨∅⟩

def isEmpty (v : AcceptedValues) : Bool :=
  v.constants.isEmpty && v.ranges.isEmpty && v.base.isEmpty && v.sorts.isEmpty

/-- Whether some value is accepted that is no data. -/
def hasGroundValues (v : AcceptedValues) : Bool :=
  !v.constants.isEmpty || !v.ranges.isEmpty || !v.base.isEmpty

/-! ## Adding values -/

/-- Accepts the integers from `low` to `high`; there are none if `high` is below `low`. -/
def addRange (v : AcceptedValues) (low high : Int) : AcceptedValues :=
  if low ≤ high then { v with ranges := IntRange.insert ⟨low, high⟩ v.ranges } else v

def addInteger (v : AcceptedValues) (value : Int) : AcceptedValues := v.addRange value value

def addString (v : AcceptedValues) (value : Name) : AcceptedValues :=
  { v with constants := v.constants.insert (.string value) }

def addConstant (v : AcceptedValues) (symbol : SymbolId) : AcceptedValues :=
  { v with constants := v.constants.insert (.symbol symbol) }

def addBase (v : AcceptedValues) (base : BaseSortSet) : AcceptedValues :=
  { v with base := v.base.union base }

def addSort (v : AcceptedValues) (sort : SymbolId) : AcceptedValues :=
  { v with sorts := v.sorts.insert sort }

/-- Accepts what either of the two accepts. -/
def union (v w : AcceptedValues) : AcceptedValues where
  constants := v.constants.union w.constants
  ranges := w.ranges.foldl (fun ranges r => IntRange.insert r ranges) v.ranges
  base := v.base.union w.base
  sorts := v.sorts.union w.sorts

/-! ## Deciding what is accepted -/

def acceptsInteger (v : AcceptedValues) (value : Int) : Bool :=
  v.base.acceptsInteger value || v.ranges.any (·.contains value)

/-- Whether every integer from `low` to `high` is accepted, counting literals and base sorts
together. -/
def acceptsRange (v : AcceptedValues) (low high : Int) : Bool :=
  let cover := v.base.stretches.foldl (fun ranges s => IntRange.insert (s.window low high) ranges)
    v.ranges
  high < low || cover.any fun r => r.low ≤ low && high ≤ r.high

/-- Whether a whole stretch of integers is accepted.  Only a base sort accepts integers without
bound; a literal can at most add zero to the positive ones. -/
def acceptsStretch (v : AcceptedValues) : Stretch → Bool
  | .negatives => v.base.closure.negInteger
  | .naturals =>
      v.base.closure.natural || (v.base.closure.posInteger && v.ranges.any (·.contains 0))
  | .positives => v.base.closure.posInteger

/-- Whether every value of the base sorts `other` is accepted. -/
def acceptsBase (v : AcceptedValues) (other : BaseSortSet) : Bool :=
  (other.inter .nonInteger).subset v.base.closure && other.stretches.all v.acceptsStretch

/-- Whether a constant is accepted, be it listed or as a value of a base sort. -/
def acceptsConstant (v : AcceptedValues) (value : ConstantValue) (isBoolean : Bool) : Bool :=
  v.constants.contains value ||
    match value with
    | .string _ => v.base.string
    | .symbol _ => isBoolean && v.base.boolean

/-- The number of accepted values that are no data, if it is finite and not too great. -/
def groundCount (v : AcceptedValues) : Option Nat :=
  if { v.base with boolean := false }.isEmpty then
    let listed := v.constants.size + (if v.base.boolean then 2 else 0)
    let count := v.ranges.foldl (fun total range => total + range.size) listed
    if count ≤ maxCount then some count else none
  else none

/-! ## Symbols -/

/-- The constant symbols among the values, in order. -/
def constantSymbols (v : AcceptedValues) : List SymbolId :=
  v.constants.toList.filterMap fun | .symbol id => some id | .string _ => none

/-- Renames the symbols; those without a new name are dropped. -/
def mapIds (f : SymbolId → Option SymbolId) (v : AcceptedValues) : AcceptedValues where
  constants := .ofList (v.constants.toList.filterMap fun
    | .symbol id => (f id).map .symbol
    | .string value => some (.string value))
  ranges := v.ranges
  base := v.base
  sorts := .ofList (v.sorts.toList.filterMap f)

end AcceptedValues

/-- The values accepted at each argument position.  A union has a single position. -/
structure CanonicalForm where
  positions : List AcceptedValues := []
deriving DecidableEq, Repr, Inhabited

namespace CanonicalForm

def get? (form : CanonicalForm) (position : Nat) : Option AcceptedValues :=
  form.positions[position]?

def size (form : CanonicalForm) : Nat := form.positions.length

def isEmpty (form : CanonicalForm) : Bool := form.positions.isEmpty

/-- Renames the symbols of every position. -/
def mapIds (f : SymbolId → Option SymbolId) (form : CanonicalForm) : CanonicalForm :=
  ⟨form.positions.map (·.mapIds f)⟩

end CanonicalForm

end ManySorted
