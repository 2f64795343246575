import ManySorted.Name

/-!
# Source positions

A span is a byte range of one file and a location is a span together with its file.  Declarations
that no file contains have the generated location.
-/

namespace ManySorted

/-- A byte range: `start` belongs to it and `stop` does not. -/
structure Span where
  start : Nat := 0
  stop : Nat := 0
deriving DecidableEq, Repr, Inhabited

namespace Span

/-- Spans are ordered by their start and then by their end. -/
instance : Ord Span := ⟨fun a b => (compare a.start b.start).then (compare a.stop b.stop)⟩

/-- The number of bytes; a span that ends before it starts has none. -/
def length (span : Span) : Nat := span.stop - span.start

def isEmpty (span : Span) : Bool := span.stop ≤ span.start

/-- The least span that covers both. -/
def merge (a b : Span) : Span := ⟨min a.start b.start, max a.stop b.stop⟩

/-- The written form `start..stop`. -/
def text (span : Span) : String := s!"{span.start}..{span.stop}"

end Span

/-- A span of a file. -/
structure Location where
  file : Name := .empty
  span : Span := {}
deriving DecidableEq, Repr, Inhabited

namespace Location

/-- The location of what no file contains. -/
def generated : Location := {}

/-- Locations are ordered by file, in the order of interning, and then by span. -/
instance : Ord Location := ⟨fun a b => (compare a.file b.file).then (compare a.span b.span)⟩

/-- Another span of the same file. -/
def withSpan (location : Location) (span : Span) : Location := { location with span }

def isGenerated (location : Location) : Bool :=
  location.file.isEmpty && location.span == {}

/-- The text of a location where no interner is at hand. -/
def label (location : Location) : String := s!"{location.file.label}@{location.span.text}"

end Location

end ManySorted
