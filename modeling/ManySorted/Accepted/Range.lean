import ManySorted.BaseSort

/-!
# Integer ranges

A set of integers is kept as the list of its maximal ranges, in ascending order.  Neighbouring
ranges have a gap between them, so the list is determined by the set.
-/

namespace ManySorted

/-- The integers from `low` to `high`, both included. -/
structure IntRange where
  low : Int
  high : Int
deriving DecidableEq, Repr

namespace IntRange

def contains (r : IntRange) (value : Int) : Bool := r.low ≤ value && value ≤ r.high

/-- The least range that covers both. -/
def hull (r s : IntRange) : IntRange := ⟨min r.low s.low, max r.high s.high⟩

/-- The number of integers in a range. -/
def size (r : IntRange) : Nat := (r.high - r.low + 1).toNat

/-- Adds a range to a list of maximal ranges, joining it with those that it overlaps or touches. -/
def insert (r : IntRange) : List IntRange → List IntRange
  | [] => [r]
  | s :: rest =>
      if r.high + 1 < s.low then r :: s :: rest
      else if s.high + 1 < r.low then s :: insert r rest
      else insert (r.hull s) rest

end IntRange

/-- The part of a stretch that decides about the range from `low` to `high`: a range that has the
same integers as the stretch between the two. -/
def Stretch.window (low high : Int) : Stretch → IntRange
  | .negatives => ⟨min low (-1), -1⟩
  | .naturals => ⟨0, max 0 high⟩
  | .positives => ⟨1, max 1 high⟩

end ManySorted
