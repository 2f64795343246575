/-!
# Base sorts

The built-in sorts and sets of them.  The integer sorts are nested: every `PosInteger` is a
`Natural`, naturals and negative integers are `Integer`s, and integers are `Real`s.
-/

namespace ManySorted

/-- A built-in sort. -/
inductive BaseSort where
  | natural
  | posInteger
  | negInteger
  | integer
  | real
  | string
  | boolean
deriving DecidableEq, Repr

namespace BaseSort

/-- All base sorts, in order of declaration. -/
def all : List BaseSort := [natural, posInteger, negInteger, integer, real, string, boolean]

def name : BaseSort → String
  | natural => "Natural"
  | posInteger => "PosInteger"
  | negInteger => "NegInteger"
  | integer => "Integer"
  | real => "Real"
  | string => "String"
  | boolean => "Boolean"

end BaseSort

/-- A set of base sorts. -/
structure BaseSortSet where
  natural : Bool := false
  posInteger : Bool := false
  negInteger : Bool := false
  integer : Bool := false
  real : Bool := false
  string : Bool := false
  boolean : Bool := false
deriving DecidableEq, Repr, Inhabited

/-- One of the unbounded stretches of integers that base sorts consist of. -/
inductive Stretch where
  | negatives
  | naturals
  | positives
deriving DecidableEq, Repr

namespace BaseSortSet

instance : EmptyCollection BaseSortSet := ⟨{}⟩

def contains (s : BaseSortSet) : BaseSort → Bool
  | .natural => s.natural
  | .posInteger => s.posInteger
  | .negInteger => s.negInteger
  | .integer => s.integer
  | .real => s.real
  | .string => s.string
  | .boolean => s.boolean

def union (s t : BaseSortSet) : BaseSortSet where
  natural := s.natural || t.natural
  posInteger := s.posInteger || t.posInteger
  negInteger := s.negInteger || t.negInteger
  integer := s.integer || t.integer
  real := s.real || t.real
  string := s.string || t.string
  boolean := s.boolean || t.boolean

def inter (s t : BaseSortSet) : BaseSortSet where
  natural := s.natural && t.natural
  posInteger := s.posInteger && t.posInteger
  negInteger := s.negInteger && t.negInteger
  integer := s.integer && t.integer
  real := s.real && t.real
  string := s.string && t.string
  boolean := s.boolean && t.boolean

def singleton : BaseSort → BaseSortSet
  | .natural => { natural := true }
  | .posInteger => { posInteger := true }
  | .negInteger => { negInteger := true }
  | .integer => { integer := true }
  | .real => { real := true }
  | .string => { string := true }
  | .boolean => { boolean := true }

def ofList (sorts : List BaseSort) : BaseSortSet :=
  sorts.foldl (fun s sort => s.union (singleton sort)) ∅

/-- The members, in order of declaration. -/
def toList (s : BaseSortSet) : List BaseSort := BaseSort.all.filter s.contains

/-- The set of all base sorts. -/
def full : BaseSortSet := ofList BaseSort.all

def isEmpty (s : BaseSortSet) : Bool := s == ∅

def subset (s t : BaseSortSet) : Bool := s.inter t == s

/-- The members as binary digits, the first declared sort being the lowest. -/
def bits (s : BaseSortSet) : Nat :=
  BaseSort.all.foldr (fun sort rest => (s.contains sort).toNat + 2 * rest) 0

/-- The set with every sort whose values all belong to a member. -/
def closure (s : BaseSortSet) : BaseSortSet :=
  let integer := s.integer || s.real
  let natural := s.natural || integer
  { s with
    integer
    natural
    negInteger := s.negInteger || integer
    posInteger := s.posInteger || natural }

/-- The sorts with values that are no integers. -/
def nonInteger : BaseSortSet := { real := true, string := true, boolean := true }

/-- Whether the integer `value` belongs to a member. -/
def acceptsInteger (s : BaseSortSet) (value : Int) : Bool :=
  let s := s.closure
  (s.posInteger && 0 < value) || (s.natural && 0 ≤ value) || (s.negInteger && value < 0)

/-- The stretches of integers that belong to members. -/
def stretches (s : BaseSortSet) : List Stretch :=
  let s := s.closure
  (if s.negInteger then [.negatives] else [])
    ++ (if s.natural then [.naturals] else if s.posInteger then [.positives] else [])

end BaseSortSet

end ManySorted
