import ManySorted.Accepted.Values

/-!
# Sizes

A size bounds the number of values of a sort or position.  It may depend on the number of facts of
other sorts, which is not known before a model is given.  Sums and products are simplified as they
are built: counts are folded into one, infinity absorbs, and a zero factor makes a product zero.
-/

namespace ManySorted

/-- An upper bound on a number of values. -/
inductive SizeExpr where
  | infinity
  | count (n : Nat)
  /-- The number of facts of a sort. -/
  | card (sort : SymbolId)
  | sum (parts : List SizeExpr)
  | product (parts : List SizeExpr)
deriving BEq, Repr, Inhabited

namespace SizeExpr

def isInfinite : SizeExpr → Bool
  | infinity => true
  | _ => false

/-- The number that a count folds in. -/
def count? : SizeExpr → Option Nat
  | count n => some n
  | _ => none

mutual

/-- The parts of a sum, with the sums among them taken apart. -/
def addends : SizeExpr → List SizeExpr
  | sum parts => addendsOf parts
  | e => [e]

/-- The addends of all the expressions of a list. -/
def addendsOf : List SizeExpr → List SizeExpr
  | [] => []
  | part :: rest => addends part ++ addendsOf rest

end

mutual

/-- The parts of a product, with the products among them taken apart. -/
def factors : SizeExpr → List SizeExpr
  | product parts => factorsOf parts
  | e => [e]

/-- The factors of all the expressions of a list. -/
def factorsOf : List SizeExpr → List SizeExpr
  | [] => []
  | part :: rest => factors part ++ factorsOf rest

end

/-- Puts the folded count behind the other parts, unless it is the identity, and applies `make` to
the parts if there are several. -/
def assemble (make : List SizeExpr → SizeExpr) (identity : Nat) (terms : List SizeExpr)
    (folded : Nat) : SizeExpr :=
  match if folded ≠ identity ∨ terms = [] then terms ++ [count folded] else terms with
  | [term] => term
  | parts => make parts

/-- The simplified sum. -/
def add (parts : List SizeExpr) : SizeExpr :=
  let flat := addendsOf parts
  let folded := (flat.filterMap count?).foldl (· + ·) 0
  if flat.any isInfinite || maxCount < folded then infinity
  else assemble sum 0 (flat.filter (·.count?.isNone)) folded

/-- The simplified product. -/
def multiply (parts : List SizeExpr) : SizeExpr :=
  let flat := factorsOf parts
  let counts := flat.filterMap count?
  let folded := counts.foldl (· * ·) 1
  if counts.contains 0 then count 0
  else if flat.any isInfinite || maxCount < folded then infinity
  else assemble product 1 (flat.filter (·.count?.isNone)) folded

mutual

/-- The value for known numbers of facts.  There is none if the size is infinite, a number is not
known, or an intermediate result is too great. -/
def evaluate (card : SymbolId → Option Nat) : SizeExpr → Option Nat
  | infinity => none
  | count n => some n
  | .card sort => card sort
  | sum parts => evaluateSum card 0 parts
  | product parts => evaluateProduct card 1 parts

/-- The value of a sum, added to `total`. -/
def evaluateSum (card : SymbolId → Option Nat) (total : Nat) : List SizeExpr → Option Nat
  | [] => some total
  | part :: rest =>
      match evaluate card part with
      | none => none
      | some n => if total + n ≤ maxCount then evaluateSum card (total + n) rest else none

/-- The value of a product, multiplied with `total`. -/
def evaluateProduct (card : SymbolId → Option Nat) (total : Nat) : List SizeExpr → Option Nat
  | [] => some total
  | part :: rest =>
      match evaluate card part with
      | none => none
      | some n => if total * n ≤ maxCount then evaluateProduct card (total * n) rest else none

end

/-- The value, if it does not depend on any number of facts. -/
def closed (e : SizeExpr) : Option Nat := e.evaluate fun _ => none

mutual

/-- Renames the sorts; a sort without a new name counts as unbounded. -/
def mapIds (f : SymbolId → Option SymbolId) : SizeExpr → SizeExpr
  | infinity => infinity
  | count n => count n
  | card sort =>
      match f sort with
      | some renamed => card renamed
      | none => infinity
  | sum parts => add (mapIdsOf f parts)
  | product parts => multiply (mapIdsOf f parts)

/-- Renames the sorts of all the expressions of a list. -/
def mapIdsOf (f : SymbolId → Option SymbolId) : List SizeExpr → List SizeExpr
  | [] => []
  | part :: rest => mapIds f part :: mapIdsOf f rest

end

mutual

/-- The written form: `inf`, a number, `|s7|`, and sums and products in parentheses. -/
def text : SizeExpr → String
  | infinity => "inf"
  | count n => toString n
  | card sort => s!"|{sort.text}|"
  | sum parts => "(" ++ Text.join " + " (texts parts) ++ ")"
  | product parts => "(" ++ Text.join " * " (texts parts) ++ ")"

/-- The written forms of all the expressions of a list. -/
def texts : List SizeExpr → List String
  | [] => []
  | part :: rest => text part :: texts rest

end

end SizeExpr

end ManySorted
