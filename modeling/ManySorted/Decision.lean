import ManySorted.Fault

/-!
# Decisions that are taken once

A decision starts open.  Once taken it keeps its value: deciding it the other way is a fault, while
falsifying it only closes a decision that is still open.
-/

namespace ManySorted

/-- A truth value that may still be open. -/
inductive Decision where
  | pending
  | decided (value : Bool)
deriving DecidableEq, Repr, Inhabited

namespace Decision

/-- The value, once there is one. -/
def value? : Decision → Option Bool
  | pending => none
  | decided value => some value

def isPending (d : Decision) : Bool := d == pending

/-- Takes the decision.  Taking it again with the same value changes nothing. -/
def resolve (d : Decision) (value : Bool) : Except Fault Decision :=
  match d with
  | pending => .ok (decided value)
  | decided old => if old = value then .ok d else .error (.decisionReversed old value)

/-- Decides an open decision negatively and keeps any other. -/
def falsify : Decision → Decision
  | pending => decided false
  | d => d

end Decision

end ManySorted
