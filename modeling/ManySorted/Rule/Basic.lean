import ManySorted.Syntax.Module
import ManySorted.Ids

/-!
# Rules

Checking a module introduces rules that its models have to obey.  They are handed on in a readable
form `head :- body.`; what they mean is up to the engine that evaluates them.
-/

namespace ManySorted

/-- What a rule forbids or demands. -/
inductive RuleKind where
  | functionality
  | injectivity
  | totality
  | inverseTotality
  | relational
  | contract (kind : ContractKind)
deriving DecidableEq, Repr

/-- An introduced rule. -/
structure Rule where
  kind : RuleKind
  /-- The data symbol that the rule constrains, or the subject of the contract. -/
  subject : SymbolId
  /-- The argument position of a rule about one position. -/
  position : Option Nat := none
  head : String
  body : List String
deriving DecidableEq, Repr

/-- The written form of a rule. -/
def Rule.text (r : Rule) : String := r.head ++ " :- " ++ Text.join ", " r.body ++ "."

end ManySorted
