import ManySorted.Diagnostic.Code
import ManySorted.Span

/-!
# Diagnostics

A diagnostic says what is wrong and labels the places that it is about.  It is printed on several
lines: what is wrong, one line for each label, one line for each note.
-/

namespace ManySorted

inductive Severity where
  | error
  | warning
deriving DecidableEq, Repr

/-- The word a diagnostic begins with. -/
def Severity.text : Severity → String
  | .error => "error"
  | .warning => "warning"

/-- A labelled place.  The primary label marks where the problem is, the others give context. -/
structure Label where
  location : Location
  message : String
  isPrimary : Bool := true
deriving DecidableEq, Repr

structure Diagnostic where
  code : DiagnosticCode
  severity : Severity
  message : String := ""
  labels : List Label := []
  notes : List String := []
deriving DecidableEq, Repr

namespace Diagnostic

/-- The location of the first primary label. -/
def primaryLocation (d : Diagnostic) : Option Location :=
  (d.labels.find? Label.isPrimary).map Label.location

def isError (d : Diagnostic) : Bool := d.severity == .error

/-- The printed form, with the places written by `place`. -/
def print (place : Location → String) (d : Diagnostic) : String :=
  let labels := d.labels.map fun label =>
    let marker := if label.isPrimary then "-->" else "   "
    s!"\n  {marker} {place label.location}: {label.message}"
  let notes := d.notes.map fun note => s!"\n  = note: {note}"
  String.join (s!"{d.severity.text} [{d.code.text}]: {d.message}" :: labels ++ notes)

/-- The printed form for a reader, with the paths of files. -/
def render (names : Interner) : Diagnostic → String :=
  print fun location =>
    let file := if location.file.isEmpty then "<generated>" else names.text location.file
    s!"{file}:{location.span.text}"

/-- The printed form where no interner is at hand. -/
def display : Diagnostic → String := print Location.label

end Diagnostic

end ManySorted
